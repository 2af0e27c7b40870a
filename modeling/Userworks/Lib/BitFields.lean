import Mathlib.Data.BitVec

/-!
Structures of bit-fields: a list of widths, allocated from the least significant
bit of the storage unit on.
-/
namespace Userworks

/-- The lowest bit of the field `i`. -/
def bitOffset (layout : List Nat) (i : Nat) : Nat := (layout.take i).sum

def bitField {n : Nat} (layout : List Nat) (i : Nat) (unit : BitVec n) :
    BitVec (layout.getD i 0) :=
  unit.extractLsb' (bitOffset layout i) (layout.getD i 0)

/-- Division by a power of two keeps the upper bits of a field. -/
theorem toNat_bitField_div {n : Nat} (layout : List Nat) (i k : Nat) (unit : BitVec n) :
    (bitField layout i unit).toNat / 2 ^ k =
      (unit.extractLsb' (bitOffset layout i + k) (layout.getD i 0 - k)).toNat := by
  apply Nat.eq_of_testBit_eq
  intro j
  rw [Nat.testBit_div_two_pow, BitVec.testBit_toNat, BitVec.testBit_toNat, bitField,
    BitVec.getLsbD_extractLsb', BitVec.getLsbD_extractLsb']
  have hlt : (j + k < layout.getD i 0) ↔ (j < layout.getD i 0 - k) := by omega
  have hpos : bitOffset layout i + (j + k) = bitOffset layout i + k + j := by omega
  rw [hpos, decide_eq_decide.mpr hlt]

end Userworks
