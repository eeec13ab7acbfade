import ChainNode.Bytes
import Mathlib.Algebra.Group.Nat.Defs

/-!
# Numbers and their digits

Digits are read to a number below the power of 256 that their count allows, and a number is read
back from its digits up to that power.
-/

namespace ChainNode

/-- Reading the digits of a number gives the number back, modulo what the digits can hold. -/
theorem ofLittleEndian_littleEndian (w n : Nat) :
    ofLittleEndian (littleEndian w n) = n % 256 ^ w := by
  induction w generalizing n with
  | zero => simp [littleEndian, ofLittleEndian, Nat.mod_one]
  | succ w ih =>
    have hdigit : (UInt8.ofNat (n % 256)).toNat = n % 256 := by
      rw [UInt8.toNat_ofNat']; omega
    rw [littleEndian, ofLittleEndian, ih, hdigit, Nat.pow_succ', Nat.mod_mul]

/-- The digits of a byte string of length `w` are below `256 ^ w`. -/
theorem ofLittleEndian_lt (bs : Bytes) : ofLittleEndian bs < 256 ^ bs.length := by
  induction bs with
  | nil => simp [ofLittleEndian]
  | cons b bs ih =>
    have := b.toNat_lt
    simp only [ofLittleEndian, List.length_cons, Nat.pow_succ']
    omega

end ChainNode
