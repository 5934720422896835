import Mathlib.Data.Int.Notation
import Mathlib.Data.List.Basic

set_option autoImplicit false

/-! # Modifier keys of the x86_64 keyboard

`keyboard_key_int` gets the scan codes of the keyboard byte by byte. Every code of a shift key turns
`kb_shift` over, and every code of a control key `kb_ctrl`. This keeps track of the keys as long as no
such key repeats its make code while it is held, and none is pressed while the other one of its kind is;
and the tables have no characters for the codes from 0x54 on (`tracked_iff`). -/

namespace Kudos.Keyboard

/-! ## The driver -/

/-- `kb_map`. -/
def kbMap : List UInt8 :=
  [0, 0, 49, 50, 51, 52, 53, 54, 55, 56, 57, 48, 45, 61, 8, 9,
    113, 119, 101, 114, 116, 121, 117, 105, 111, 112, 91, 93, 10, 0, 97, 115,
    100, 102, 103, 104, 106, 107, 108, 59, 39, 96, 0, 92, 122, 120, 99, 118,
    98, 110, 109, 44, 46, 47, 0, 42, 0, 32, 0, 0, 0, 0, 0, 0,
    0, 0, 0, 0, 0, 0, 0, 55, 56, 57, 45, 52, 53, 54, 43, 49,
    50, 51, 48, 46]

/-- `kb_map_shift`. -/
def kbMapShift : List UInt8 :=
  [0, 0, 33, 64, 35, 36, 37, 94, 38, 42, 40, 41, 95, 43, 8, 9,
    81, 87, 69, 82, 84, 89, 85, 73, 79, 80, 123, 125, 10, 0, 65, 83,
    68, 70, 71, 72, 74, 75, 76, 58, 34, 126, 0, 124, 90, 88, 67, 86,
    98, 78, 77, 60, 62, 63, 0, 42, 0, 32, 0, 0, 0, 0, 0, 0,
    0, 0, 0, 0, 0, 0, 0, 55, 56, 57, 45, 52, 53, 54, 43, 49,
    50, 51, 48, 46]

/-- The variables of the driver that `keyboard_key_int` uses. -/
structure Driver where
  kbShift : UInt8
  kbCtrl : UInt8
  kbCapslock : UInt8
  kbNumlock : UInt8
  kbScrolllock : UInt8
  kbCode : ℤ

/-- `keyboard_key_int`, for the byte in the output buffer of the controller, if there is one. The error is
an index outside of the tables. -/
def keyboardKeyInt (s : Driver) : Option UInt8 → Except ℕ Driver
  | none => return s
  | some data =>
      -- an extended scancode
      if data = 0xE0 ∨ data = 0xE1 then return s
      else
        let xt : Bool := 0x80 ≤ data.toNat
        let kcode := data.toNat % 0x80
        if kcode = 0x2a ∨ kcode = 0x36 then return { s with kbShift := if s.kbShift = 0 then 1 else 0 }
        else if kcode = 0x1d then return { s with kbCtrl := if s.kbCtrl = 0 then 1 else 0 }
        else if kcode = 0x3a then return { s with kbCapslock := if xt then 1 else 0 }
        else if kcode = 0x45 then return { s with kbNumlock := if xt then 1 else 0 }
        else if kcode = 0x46 then return { s with kbScrolllock := if xt then 1 else 0 }
        else if xt then return s
        else
          match (if s.kbShift = 0 then kbMap else kbMapShift)[kcode]? with
          | some c => return { s with kbCode := c.toNat }
          | none => throw kcode

/-! ## The keys -/

/-- What is in front of a scan code. -/
inductive Lead where
  | plain | e0 | e1
  deriving DecidableEq, Repr

/-- The keys that are held, by the byte in front of their codes and the lower 7 bits of these, and the byte
in front of the next code. -/
structure Held where
  lead : Lead
  keys : Lead → ℕ → Bool

/-- The byte is a scan code, not one in front of it. -/
def IsCode (data : UInt8) : Prop := data ≠ 0xE0 ∧ data ≠ 0xE1

instance (data : UInt8) : Decidable (IsCode data) := inferInstanceAs (Decidable (_ ∧ _))

/-- The key of a scan code. -/
def keyOf (data : UInt8) : ℕ := data.toNat % 0x80

/-- The scan code is a make code. -/
def isMake (data : UInt8) : Bool := data.toNat < 0x80

/-- A make code presses its key, or repeats; a break code releases it. -/
def Held.next (h : Held) (data : UInt8) : Held :=
  if data = 0xE0 then { h with lead := .e0 }
  else if data = 0xE1 then { h with lead := .e1 }
  else ⟨.plain, fun l k => if l = h.lead ∧ k = keyOf data then isMake data else h.keys l k⟩

/-- A shift key is held. -/
def Held.shift (h : Held) : Bool := h.keys .plain 0x2a || h.keys .plain 0x36

/-- A control key is held. The right one has the code of the left one behind 0xE0. -/
def Held.ctrl (h : Held) : Bool := h.keys .plain 0x1d || h.keys .e0 0x1d

/-- Only keys that are held are released. -/
def Alternates : Held → List UInt8 → Prop
  | _, [] => True
  | h, data :: l =>
      (IsCode data → isMake data = false → h.keys h.lead (keyOf data) = true) ∧ Alternates (h.next data) l

/-! ## Keeping track -/

/-- The flags of the driver say which modifier keys are held. -/
structure Tracks (s : Driver) (h : Held) : Prop where
  shift : s.kbShift = 1 ↔ h.shift = true
  ctrl : s.kbCtrl = 1 ↔ h.ctrl = true

/-- The key of a make code for which the driver looks up a character. -/
def isLookup (data : UInt8) : Bool :=
  isMake data && !([0x2a, 0x36, 0x1d, 0x3a, 0x45, 0x46].contains (keyOf data))

/-- The character for a make code is the one for the keys that are held. -/
def Chosen (h : Held) (data : UInt8) (s' : Driver) : Prop :=
  IsCode data → isLookup data = true → ∃ c,
    (if h.shift then kbMapShift else kbMap)[keyOf data]? = some c ∧ s'.kbCode = c.toNat

/-- The driver keeps track of the keys: after each byte the flags are right, and the character of a key
is the one for the keys that are held. -/
def Tracked : Driver → Held → List UInt8 → Prop
  | s, h, [] => Tracks s h
  | s, h, data :: l =>
      Tracks s h ∧ ∃ s', keyboardKeyInt s (some data) = .ok s' ∧
        Chosen h data s' ∧ Tracked s' (h.next data) l

/-- A code of a modifier key does not repeat, and the other key of its kind is not held. -/
def Single (data : UInt8) (own other : Bool) : Prop := other = false ∧ (isMake data = true → own = false)

/-- The scan code does not mislead the driver. -/
def Harmless (h : Held) (data : UInt8) : Prop :=
  if keyOf data = 0x2a then
    h.lead = .plain ∧ Single data (h.keys .plain 0x2a) (h.keys .plain 0x36)
  else if keyOf data = 0x36 then
    h.lead = .plain ∧ Single data (h.keys .plain 0x36) (h.keys .plain 0x2a)
  else if keyOf data = 0x1d then
    (h.lead = .plain ∧ Single data (h.keys .plain 0x1d) (h.keys .e0 0x1d)) ∨
      (h.lead = .e0 ∧ Single data (h.keys .e0 0x1d) (h.keys .plain 0x1d))
  else isLookup data = true → keyOf data < 0x54

instance (data : UInt8) (own other : Bool) : Decidable (Single data own other) :=
  inferInstanceAs (Decidable (_ ∧ _))

instance (h : Held) (data : UInt8) : Decidable (Harmless h data) :=
  inferInstanceAs (Decidable (ite _ _ (ite _ _ (ite _ _ _))))

/-- No scan code misleads the driver. -/
def AllHarmless : Held → List UInt8 → Prop
  | _, [] => True
  | h, data :: l => (IsCode data → Harmless h data) ∧ AllHarmless (h.next data) l

/-! ## A byte -/

/-- The flags of the driver are 1 or 0. -/
structure Synced (s : Driver) (h : Held) : Prop where
  shift : s.kbShift = if h.shift then 1 else 0
  ctrl : s.kbCtrl = if h.ctrl then 1 else 0

theorem flag_eq_one_iff {flag : UInt8} {b : Bool} (h : flag = if b then 1 else 0) : flag = 1 ↔ b = true := by
  subst h
  cases b with
  | true => decide
  | false => decide

/-- A flag that is turned over. -/
theorem toggle_flag {flag : UInt8} {b : Bool} (h : flag = if b then 1 else 0) :
    (if flag = 0 then (1 : UInt8) else 0) = if !b then 1 else 0 := by
  subst h
  cases b with
  | true => decide
  | false => decide

theorem Synced.tracks {s : Driver} {h : Held} (hs : Synced s h) : Tracks s h :=
  ⟨flag_eq_one_iff hs.shift, flag_eq_one_iff hs.ctrl⟩

section

variable {s s' : Driver} {h : Held} {data : UInt8}

theorem next_keys (hcode : IsCode data) (l : Lead) (k : ℕ) : (h.next data).keys l k
    = if l = h.lead ∧ k = keyOf data then isMake data else h.keys l k := by
  unfold Held.next
  rw [if_neg hcode.1, if_neg hcode.2]

/-- The other keys stay as they are. -/
theorem next_keys_of_ne (hcode : IsCode data) {l : Lead} {k : ℕ} (hne : l = h.lead → k ≠ keyOf data) :
    (h.next data).keys l k = h.keys l k := by
  rw [next_keys hcode, if_neg fun heq => hne heq.1 heq.2]

theorem next_keys_self (hcode : IsCode data) {l : Lead} {k : ℕ} (hl : l = h.lead) (hk : k = keyOf data) :
    (h.next data).keys l k = isMake data := by
  rw [next_keys hcode, if_pos ⟨hl, hk⟩]

theorem next_lead (hcode : ¬ IsCode data) : (h.next data).keys = h.keys := by
  unfold Held.next
  by_cases h0 : data = 0xE0
  · rw [if_pos h0]
  · have h1 : data = 0xE1 := by
      by_contra h1
      exact hcode ⟨h0, h1⟩
    rw [if_neg h0, if_pos h1]

theorem run_lead (hcode : ¬ IsCode data) : keyboardKeyInt s (some data) = .ok s := by
  have hlead : data = 0xE0 ∨ data = 0xE1 := by
    by_contra hne
    rw [not_or] at hne
    exact hcode hne
  unfold keyboardKeyInt
  simp only
  rw [if_pos hlead]
  rfl

/-- The switch over the scan codes. -/
theorem run_code (hcode : IsCode data) : keyboardKeyInt s (some data) =
    if keyOf data = 0x2a ∨ keyOf data = 0x36 then .ok { s with kbShift := if s.kbShift = 0 then 1 else 0 }
    else if keyOf data = 0x1d then .ok { s with kbCtrl := if s.kbCtrl = 0 then 1 else 0 }
    else if keyOf data = 0x3a then .ok { s with kbCapslock := if 0x80 ≤ data.toNat then 1 else 0 }
    else if keyOf data = 0x45 then .ok { s with kbNumlock := if 0x80 ≤ data.toNat then 1 else 0 }
    else if keyOf data = 0x46 then .ok { s with kbScrolllock := if 0x80 ≤ data.toNat then 1 else 0 }
    else if 0x80 ≤ data.toNat then .ok s
    else
      match (if s.kbShift = 0 then kbMap else kbMapShift)[keyOf data]? with
      | some c => .ok { s with kbCode := c.toNat }
      | none => .error (keyOf data) := by
  unfold keyboardKeyInt
  simp only
  rw [if_neg (not_or.2 hcode)]
  simp only [decide_eq_true_eq]
  rfl

theorem run_shift (hcode : IsCode data) (hkey : keyOf data = 0x2a ∨ keyOf data = 0x36) :
    keyboardKeyInt s (some data) = .ok { s with kbShift := if s.kbShift = 0 then 1 else 0 } := by
  rw [run_code hcode, if_pos hkey]

theorem run_ctrl (hcode : IsCode data) (hkey : keyOf data = 0x1d) :
    keyboardKeyInt s (some data) = .ok { s with kbCtrl := if s.kbCtrl = 0 then 1 else 0 } := by
  rw [run_code hcode, if_neg (by omega), if_pos hkey]

theorem isLookup_iff : isLookup data = true ↔
    isMake data = true ∧ keyOf data ≠ 0x2a ∧ keyOf data ≠ 0x36 ∧ keyOf data ≠ 0x1d ∧ keyOf data ≠ 0x3a ∧
      keyOf data ≠ 0x45 ∧ keyOf data ≠ 0x46 := by
  simp [isLookup]

/-- A key for which nothing is looked up does not change the flags of the modifiers. -/
theorem run_silent (hcode : IsCode data) (hshift : ¬ (keyOf data = 0x2a ∨ keyOf data = 0x36))
    (hctrl : keyOf data ≠ 0x1d) (hlook : isLookup data = false) :
    ∃ s', keyboardKeyInt s (some data) = .ok s' ∧ s'.kbShift = s.kbShift ∧ s'.kbCtrl = s.kbCtrl := by
  rw [run_code hcode, if_neg hshift, if_neg hctrl]
  by_cases h3a : keyOf data = 0x3a
  · rw [if_pos h3a]
    exact ⟨_, rfl, rfl, rfl⟩
  rw [if_neg h3a]
  by_cases h45 : keyOf data = 0x45
  · rw [if_pos h45]
    exact ⟨_, rfl, rfl, rfl⟩
  rw [if_neg h45]
  by_cases h46 : keyOf data = 0x46
  · rw [if_pos h46]
    exact ⟨_, rfl, rfl, rfl⟩
  rw [if_neg h46]
  have hbreak : 0x80 ≤ data.toNat := by
    by_contra hlt
    rw [not_or] at hshift
    have htrue := isLookup_iff.2 ⟨decide_eq_true (Nat.lt_of_not_le hlt), hshift.1, hshift.2, hctrl, h3a, h45, h46⟩
    rw [hlook] at htrue
    cases htrue
  rw [if_pos hbreak]
  exact ⟨s, rfl, rfl, rfl⟩

/-- A character that is looked up. -/
theorem run_lookup (hcode : IsCode data) (hlook : isLookup data = true) :
    keyboardKeyInt s (some data) =
      match (if s.kbShift = 0 then kbMap else kbMapShift)[keyOf data]? with
      | some c => .ok { s with kbCode := c.toNat }
      | none => .error (keyOf data) := by
  obtain ⟨hmake, h2a, h36, h1d, h3a, h45, h46⟩ := isLookup_iff.1 hlook
  have hxt : ¬ 0x80 ≤ data.toNat := Nat.not_le.2 (of_decide_eq_true hmake)
  rw [run_code hcode, if_neg (not_or.2 ⟨h2a, h36⟩), if_neg h1d, if_neg h3a, if_neg h45, if_neg h46,
    if_neg hxt]

/-! ## Turning a flag over -/

/-- Turning a flag over is right if the key was not held before it was pressed, and no other one is. -/
theorem toggle_iff (make own other : Bool) (halt : make = false → own = true) :
    (!(own || other)) = (make || other) ↔ other = false ∧ (make = true → own = false) := by
  cases make with
  | true => cases own <;> cases other <;> simp
  | false =>
      rw [halt rfl]
      cases other <;> simp

theorem next_shift_of_ne (hcode : IsCode data) (h2a : keyOf data ≠ 0x2a) (h36 : keyOf data ≠ 0x36) :
    (h.next data).shift = h.shift := by
  unfold Held.shift
  rw [next_keys_of_ne hcode fun _ => h2a.symm, next_keys_of_ne hcode fun _ => h36.symm]

theorem next_ctrl_of_ne (hcode : IsCode data) (h1d : keyOf data ≠ 0x1d) :
    (h.next data).ctrl = h.ctrl := by
  unfold Held.ctrl
  rw [next_keys_of_ne hcode fun _ => h1d.symm, next_keys_of_ne hcode fun _ => h1d.symm]

/-- `kb_shift` is right after a code of a shift key that is harmless, and only then. -/
theorem not_shift_iff (hcode : IsCode data)
    (halt : isMake data = false → h.keys h.lead (keyOf data) = true)
    (hkey : keyOf data = 0x2a ∨ keyOf data = 0x36) :
    (!h.shift) = (h.next data).shift ↔ Harmless h data := by
  unfold Harmless
  by_cases hlead : h.lead = .plain
  · rcases hkey with hkey | hkey
    · rw [hlead, hkey] at halt
      rw [if_pos hkey, and_iff_right hlead, Single, Held.shift, Held.shift,
        next_keys_self hcode hlead.symm hkey.symm,
        next_keys_of_ne hcode fun _ => by rw [hkey]; decide]
      exact toggle_iff _ _ _ halt
    · rw [hlead, hkey] at halt
      rw [if_neg (by rw [hkey]; decide), if_pos hkey, and_iff_right hlead, Single, Held.shift, Held.shift,
        next_keys_self hcode hlead.symm hkey.symm,
        next_keys_of_ne hcode fun _ => by rw [hkey]; decide, Bool.or_comm, Bool.or_comm _ (isMake data)]
      exact toggle_iff _ _ _ halt
  · have hsame : (h.next data).shift = h.shift := by
      unfold Held.shift
      rw [next_keys_of_ne hcode fun heq => absurd heq.symm hlead,
        next_keys_of_ne hcode fun heq => absurd heq.symm hlead]
    rw [hsame]
    refine iff_of_false (Bool.not_eq_self _).1 ?_
    rcases hkey with hkey | hkey
    · rw [if_pos hkey]
      exact fun hharmless => hlead hharmless.1
    · rw [if_neg (by rw [hkey]; decide), if_pos hkey]
      exact fun hharmless => hlead hharmless.1

/-- `kb_ctrl` is right after a code of a control key that is harmless, and only then. -/
theorem not_ctrl_iff (hcode : IsCode data)
    (halt : isMake data = false → h.keys h.lead (keyOf data) = true) (hkey : keyOf data = 0x1d) :
    (!h.ctrl) = (h.next data).ctrl ↔ Harmless h data := by
  unfold Harmless
  rw [if_neg (by rw [hkey]; decide), if_neg (by rw [hkey]; decide), if_pos hkey]
  cases hlead : h.lead with
  | plain =>
      rw [hlead, hkey] at halt
      have hleft : (h.next data).keys .plain 0x1d = isMake data := next_keys_self hcode hlead.symm hkey.symm
      have hright : (h.next data).keys .e0 0x1d = h.keys .e0 0x1d :=
        next_keys_of_ne hcode fun heq => by rw [hlead] at heq; cases heq
      rw [Held.ctrl, Held.ctrl, hleft, hright, toggle_iff _ _ _ halt]
      simp [Single]
  | e0 =>
      rw [hlead, hkey] at halt
      have hleft : (h.next data).keys .plain 0x1d = h.keys .plain 0x1d :=
        next_keys_of_ne hcode fun heq => by rw [hlead] at heq; cases heq
      have hright : (h.next data).keys .e0 0x1d = isMake data := next_keys_self hcode hlead.symm hkey.symm
      rw [Held.ctrl, Held.ctrl, hleft, hright, Bool.or_comm, Bool.or_comm _ (isMake data),
        toggle_iff _ _ _ halt]
      simp [Single]
  | e1 =>
      have hleft : (h.next data).keys .plain 0x1d = h.keys .plain 0x1d :=
        next_keys_of_ne hcode fun heq => by rw [hlead] at heq; cases heq
      have hright : (h.next data).keys .e0 0x1d = h.keys .e0 0x1d :=
        next_keys_of_ne hcode fun heq => by rw [hlead] at heq; cases heq
      rw [Held.ctrl, Held.ctrl, hleft, hright]
      exact iff_of_false (Bool.not_eq_self _).1 (by simp)

/-! ## A scan code -/

theorem table_eq (hs : Synced s h) :
    (if s.kbShift = 0 then kbMap else kbMapShift) = if h.shift then kbMapShift else kbMap := by
  rw [hs.shift]
  cases h.shift with
  | true => rfl
  | false => rfl

theorem table_length : (if h.shift then kbMapShift else kbMap).length = 0x54 := by
  cases h.shift with
  | true => rfl
  | false => rfl

/-- **A scan code** that is harmless keeps the driver on the track, and any other one leads it off. -/
theorem step_code (hs : Synced s h) (hcode : IsCode data)
    (halt : isMake data = false → h.keys h.lead (keyOf data) = true) :
    (Harmless h data ∧ ∃ s', keyboardKeyInt s (some data) = .ok s' ∧ Chosen h data s' ∧
      Synced s' (h.next data)) ∨
    (¬ Harmless h data ∧ ∀ s', keyboardKeyInt s (some data) = .ok s' → ¬ Tracks s' (h.next data)) := by
  by_cases hshift : keyOf data = 0x2a ∨ keyOf data = 0x36
  · have hctrl : (h.next data).ctrl = h.ctrl := next_ctrl_of_ne hcode (by omega)
    have hflag := toggle_flag hs.shift
    have hiff := not_shift_iff hcode halt hshift
    rw [run_shift hcode hshift]
    by_cases hharmless : Harmless h data
    · refine Or.inl ⟨hharmless, _, rfl, fun _ hlook => ?_, ?_, ?_⟩
      · obtain ⟨-, h2a, h36, -⟩ := isLookup_iff.1 hlook
        exact absurd hshift (not_or.2 ⟨h2a, h36⟩)
      · rw [← hiff.2 hharmless]
        exact hflag
      · rw [hctrl]
        exact hs.ctrl
    · refine Or.inr ⟨hharmless, fun s' hrun htracks => hharmless (hiff.1 ?_)⟩
      cases hrun
      rw [Bool.eq_iff_iff, ← htracks.shift]
      exact (flag_eq_one_iff hflag).symm
  by_cases hctrl : keyOf data = 0x1d
  · have hsame : (h.next data).shift = h.shift := next_shift_of_ne hcode (by omega) (by omega)
    have hflag := toggle_flag hs.ctrl
    have hiff := not_ctrl_iff hcode halt hctrl
    rw [run_ctrl hcode hctrl]
    by_cases hharmless : Harmless h data
    · refine Or.inl ⟨hharmless, _, rfl, fun _ hlook => ?_, ?_, ?_⟩
      · obtain ⟨-, -, -, h1d, -⟩ := isLookup_iff.1 hlook
        exact absurd hctrl h1d
      · rw [hsame]
        exact hs.shift
      · rw [← hiff.2 hharmless]
        exact hflag
    · refine Or.inr ⟨hharmless, fun s' hrun htracks => hharmless (hiff.1 ?_)⟩
      cases hrun
      rw [Bool.eq_iff_iff, ← htracks.ctrl]
      exact (flag_eq_one_iff hflag).symm
  -- no modifier
  have hkeys := not_or.1 hshift
  have hsame : ∀ {s'}, s'.kbShift = s.kbShift → s'.kbCtrl = s.kbCtrl → Synced s' (h.next data) := by
    intro s' h1 h2
    refine ⟨?_, ?_⟩
    · rw [h1, next_shift_of_ne hcode hkeys.1 hkeys.2, hs.shift]
    · rw [h2, next_ctrl_of_ne hcode hctrl, hs.ctrl]
  have hharmless : Harmless h data ↔ (isLookup data = true → keyOf data < 0x54) := by
    unfold Harmless
    rw [if_neg hkeys.1, if_neg hkeys.2, if_neg hctrl]
  rw [hharmless]
  cases hlook : isLookup data with
  | false =>
      obtain ⟨s', hrun, h1, h2⟩ := run_silent (s := s) hcode hshift hctrl hlook
      refine Or.inl ⟨nofun, s', hrun, fun _ htrue => ?_, hsame h1 h2⟩
      rw [hlook] at htrue
      cases htrue
  | true =>
      rw [run_lookup hcode hlook, table_eq hs]
      by_cases hlt : keyOf data < 0x54
      · obtain ⟨c, hget⟩ : ∃ c, (if h.shift then kbMapShift else kbMap)[keyOf data]? = some c :=
          ⟨_, List.getElem?_eq_getElem (by rw [table_length]; exact hlt)⟩
        rw [hget]
        exact Or.inl ⟨fun _ => hlt, _, rfl, fun _ _ => ⟨c, hget, rfl⟩, hsame rfl rfl⟩
      · rw [List.getElem?_eq_none (by rw [table_length]; exact Nat.le_of_not_lt hlt)]
        exact Or.inr ⟨fun h => hlt (h rfl), fun s' hrun => by cases hrun⟩

/-! ## Runs -/

/-- **Modifier tracking from a state in which the flags are right.** -/
theorem tracked_iff_of_synced {l : List UInt8} (hs : Synced s h) (halt : Alternates h l) :
    Tracked s h l ↔ AllHarmless h l := by
  induction l generalizing s h with
  | nil => exact iff_of_true hs.tracks trivial
  | cons data l ih =>
      obtain ⟨hbreak, halt⟩ := halt
      by_cases hcode : IsCode data
      · rcases step_code hs hcode (hbreak hcode) with ⟨hharmless, s', hrun, hchosen, hnext⟩ | ⟨hharm, hlost⟩
        · have hrest := ih hnext halt
          constructor
          · rintro ⟨-, s'', hrun', -, htracked⟩
            rw [hrun] at hrun'
            cases hrun'
            exact ⟨fun _ => hharmless, hrest.1 htracked⟩
          · rintro ⟨-, hall⟩
            exact ⟨hs.tracks, s', hrun, hchosen, hrest.2 hall⟩
        · refine iff_of_false ?_ fun hall => hharm (hall.1 hcode)
          rintro ⟨-, s', hrun, -, htracked⟩
          refine hlost s' hrun ?_
          cases l with
          | nil => exact htracked
          | cons data' l => exact htracked.1
      · -- a byte in front of a scan code
        have hkeys := next_lead (h := h) hcode
        have hnext : Synced s (h.next data) := by
          refine ⟨?_, ?_⟩
          · rw [hs.shift, Held.shift, Held.shift, hkeys]
          · rw [hs.ctrl, Held.ctrl, Held.ctrl, hkeys]
        have hrest := ih hnext halt
        constructor
        · rintro ⟨-, s', hrun, -, htracked⟩
          rw [run_lead hcode] at hrun
          cases hrun
          exact ⟨fun hcode' => absurd hcode' hcode, hrest.1 htracked⟩
        · rintro ⟨-, hall⟩
          exact ⟨hs.tracks, s, run_lead hcode, fun hcode' => absurd hcode' hcode, hrest.2 hall⟩

end

/-- No key is held. -/
def released : Held := ⟨.plain, fun _ _ => false⟩

/-- The variables of the driver before the first key. -/
def startDriver : Driver := ⟨0, 0, 0, 0, 0, 0⟩

/-- **Keyboard modifier tracking.** The driver keeps track of the keys that are held if and only if every scan
code is harmless: no modifier key repeats or is pressed beside the other one of its kind, and the tables
have the codes that are looked up. -/
theorem tracked_iff {l : List UInt8} (h : Alternates released l) :
    Tracked startDriver released l ↔ AllHarmless released l :=
  tracked_iff_of_synced ⟨rfl, rfl⟩ h

/-- Left shift, `A`, and both released. -/
theorem tracked_iff_capital : Tracked startDriver released [0x2a, 0x1e, 0x9e, 0xaa] := by
  refine (tracked_iff ?_).2 ?_
  · exact ⟨by decide, by decide, by decide, by decide, trivial⟩
  · exact ⟨fun _ => by decide, fun _ => by decide, fun _ => by decide, fun _ => by decide, trivial⟩

/-- If the shift key repeats its make code, the driver takes it for released. -/
theorem repeat_not_tracked :
    Alternates released [0x2a, 0x2a] ∧ ¬ Tracked startDriver released [0x2a, 0x2a] := by
  refine ⟨⟨by decide, by decide, trivial⟩, ?_⟩
  rintro ⟨-, s1, hrun1, -, -, s2, hrun2, -, htracks⟩
  cases hrun1
  cases hrun2
  exact absurd (htracks.shift.2 (by decide)) (by decide)

end Kudos.Keyboard
