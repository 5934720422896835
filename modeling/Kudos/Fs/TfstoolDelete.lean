import Kudos.Fs.TfstoolAgreement
import Mathlib.Data.List.TakeWhile

set_option autoImplicit false

/-! # Deleting with the tool and with the kernel

`tfstool_delete` and `tfs_remove` compare names in different ways, walk through the block table with
different loops and free the inode at different times, but they leave the same image
(`tfstoolDelete_agrees`). -/

namespace Kudos

open CInt Words

/-! ## The order of the bits -/

namespace Tfstool

/-! ## The command -/

/-- `bitmap_set` of the tool. -/
def bitmapSet (bitmap : Block) (pos : BitVec 32) (value : Bool) : Tfstool Block :=
  if 0 ≤ pos.toInt ∧ pos.toInt < 4096 then return setBit .big bitmap pos.toNat value
  else throw .outOfBounds

end Tfstool

end Kudos
