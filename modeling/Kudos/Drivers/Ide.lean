import Mathlib.Data.Int.Notation
import Mathlib.Tactic.Linarith

set_option autoImplicit false

/-! # The disk driver of the x86_64 kernel

`ide_read_block` and `ide_write_block` of `drivers/x86_64/disk.c`. Their callers take a result of 0 for
a failure and every other one for success. That is what `ide_pio_readwrite` returns, a number of bytes;
the checks in front of it return negative numbers. -/

namespace Kudos

/-! ## The driver -/

def ideRead : UInt8 := 0x00
def ideWrite : UInt8 := 0x01

/-- What is used of an `ide_device_t`. -/
structure IdeDevice where
  present : UInt8
  /-- 1 for LBA48. -/
  flags : UInt8
  /-- 0 for a hard disk. -/
  type : UInt16
  totalsectors : ℕ

/-- What is used of a `gbd_request_t`. -/
structure IdeRequest where
  block : BitVec 32
  buf : BitVec 32

/-- A transfer between a drive and the buffer of a request. -/
structure IdeTransfer where
  rw : UInt8
  sector : ℕ
  numsectors : ℕ
  deriving DecidableEq, Repr

/-- The sector number that arrives at the drive: its address registers take 48 bits, or 28. -/
def ideAddress (flags : UInt8) (lba : ℕ) : ℕ := lba % 2 ^ (if flags &&& 0x1 ≠ 0 then 48 else 28)

/-- `ide_pio_readwrite`: its result, and the transfer that it makes. `wait` is what the `ide_wait` behind
    the command returns. -/
def idePioReadwrite (dev : IdeDevice) (rw : UInt8) (lba : ℕ) (buf : BitVec 32) (numsectors : ℕ)
    (wait : ℤ) : ℤ × Option IdeTransfer :=
  if 1 < rw ∨ buf = 0 then (0, none)
  else if wait ≠ 0 then (0, none)
  else
    let words := numsectors * 512 / 2
    (words * 2, some ⟨rw, ideAddress dev.flags lba, numsectors⟩)

/-- `ide_read_block` and `ide_write_block`, which differ in the direction and in the numbers they return
    for a drive that is not there (`absent`) and for a sector that it does not have (`outside`). -/
def ideBlock (rw : UInt8) (absent outside : ℤ) (devices : ℕ → IdeDevice) (drive : UInt8)
    (request : IdeRequest) (wait : ℤ) : ℤ × Option IdeTransfer :=
  let dev := devices drive.toNat
  let sector := request.block.toNat
  if 3 < drive ∨ dev.present = 0 then (absent, none)
  else if dev.totalsectors < sector ∨ dev.type ≠ 0 then (outside, none)
  else idePioReadwrite dev rw sector request.buf 1 wait

/-- `ide_read_block`. -/
def ideReadBlock : (ℕ → IdeDevice) → UInt8 → IdeRequest → ℤ → ℤ × Option IdeTransfer :=
  ideBlock ideRead (-6) (-5)

/-- `ide_write_block`. -/
def ideWriteBlock : (ℕ → IdeDevice) → UInt8 → IdeRequest → ℤ → ℤ × Option IdeTransfer :=
  ideBlock ideWrite (-1) (-2)

/-! ## Which failures are reported -/

section

variable (devices : ℕ → IdeDevice) (drive : UInt8) (request : IdeRequest) (wait : ℤ)

/-- A request was carried out: one sector was transferred, and the drive has it. -/
def CarriedOut (result : ℤ × Option IdeTransfer) : Prop :=
  ∃ t, result.2 = some t ∧ t.numsectors = 1 ∧ t.sector < (devices drive.toNat).totalsectors

/-- The result is one that the callers understand: if the request was not carried out, it is 0. -/
def ReportsFailure (result : ℤ × Option IdeTransfer) : Prop :=
  ¬ CarriedOut devices drive result → result.1 = 0

/-- The request is for a hard disk that is there, and for a sector that it has. In place of the latter it
    may be for the sector behind the last one, if then nothing is transferred or the sector number that
    arrives at the drive is a smaller one. -/
structure Serves : Prop where
  drive_le : drive ≤ 3
  present : (devices drive.toNat).present ≠ 0
  type : (devices drive.toNat).type = 0
  block_le : request.block.toNat ≤ (devices drive.toNat).totalsectors
  sector : ideAddress (devices drive.toNat).flags request.block.toNat
      < (devices drive.toNat).totalsectors ∨ request.buf = 0 ∨ wait ≠ 0

variable {devices drive request wait}

theorem ideAddress_le (flags : UInt8) (lba : ℕ) : ideAddress flags lba ≤ lba := Nat.mod_le ..

/-- A sector that the drive has is served, whatever the outcome. -/
theorem Serves.of_lt (hdrive : drive ≤ 3) (hpresent : (devices drive.toNat).present ≠ 0)
    (htype : (devices drive.toNat).type = 0)
    (hblock : request.block.toNat < (devices drive.toNat).totalsectors) :
    Serves devices drive request wait :=
  ⟨hdrive, hpresent, htype, hblock.le, Or.inl ((ideAddress_le ..).trans_lt hblock)⟩

/-- The failures that are reported are exactly those of requests that the driver passes to a drive. -/
theorem ideBlock_reports {rw : UInt8} (hrw : rw ≤ 1) {absent outside : ℤ} (habsent : absent ≠ 0)
    (houtside : outside ≠ 0) :
    ReportsFailure devices drive (ideBlock rw absent outside devices drive request wait) ↔
      Serves devices drive request wait := by
  have hnone : ∀ ret : ℤ, ret ≠ 0 → ¬ ReportsFailure devices drive (ret, none) := by
    intro ret hret hreports
    refine hret (hreports ?_)
    rintro ⟨t, ht, -⟩
    cases ht
  unfold ideBlock
  by_cases hdrive : 3 < drive ∨ (devices drive.toNat).present = 0
  · rw [if_pos hdrive]
    refine iff_of_false (hnone absent habsent) fun hserves => ?_
    rcases hdrive with hdrive | hpresent
    · exact absurd hserves.drive_le (UInt8.not_le.2 hdrive)
    · exact hserves.present hpresent
  · rw [if_neg hdrive]
    obtain ⟨hdrive, hpresent⟩ := not_or.1 hdrive
    by_cases hrange : (devices drive.toNat).totalsectors < request.block.toNat ∨
        (devices drive.toNat).type ≠ 0
    · rw [if_pos hrange]
      refine iff_of_false (hnone outside houtside) fun hserves => ?_
      rcases hrange with hrange | htype
      · exact absurd hserves.block_le (Nat.not_le.2 hrange)
      · exact htype hserves.type
    · rw [if_neg hrange]
      obtain ⟨hrange, htype⟩ := not_or.1 hrange
      have hserves : (ideAddress (devices drive.toNat).flags request.block.toNat
          < (devices drive.toNat).totalsectors ∨ request.buf = 0 ∨ wait ≠ 0) ↔
          Serves devices drive request wait :=
        ⟨fun h => ⟨UInt8.not_lt.1 hdrive, hpresent, not_not.1 htype, Nat.not_lt.1 hrange, h⟩,
          fun h => h.sector⟩
      rw [← hserves]
      unfold idePioReadwrite
      by_cases hbuf : request.buf = 0
      · rw [if_pos (Or.inr hbuf)]
        exact iff_of_true (fun _ => rfl) (Or.inr (Or.inl hbuf))
      · have hgo : ¬ (1 < rw ∨ request.buf = 0) := not_or.2 ⟨UInt8.not_lt.2 hrw, hbuf⟩
        rw [if_neg hgo]
        by_cases hwait : wait ≠ 0
        · rw [if_pos hwait]
          exact iff_of_true (fun _ => rfl) (Or.inr (Or.inr hwait))
        · rw [if_neg hwait]
          constructor
          · intro hreports
            by_contra hsector
            have hzero := hreports (by
              rintro ⟨t, ht, -, hlt⟩
              cases ht
              exact hsector (Or.inl hlt))
            cases hzero
          · rintro (hlt | hbuf' | hwait') hnot
            · exact absurd ⟨_, rfl, rfl, hlt⟩ hnot
            · exact absurd hbuf' hbuf
            · exact absurd hwait' hwait

end

end Kudos
