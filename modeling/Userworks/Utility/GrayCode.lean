import Userworks.Utility.Ecc

/-!
Gray codes, `src/utility/GrayCode.h`. A bit of a code is the difference between
two neighbouring bits of the number, so the number is found from the top bit
down.
-/
namespace Userworks.E16

variable {N : Nat}

/-! ### The source -/

def binaryToGray (b : BitVec N) : BitVec N := b ^^^ (b >>> 1)

/-- One turn of the loop. -/
def grayToBinaryStep (g : BitVec N) (b : BitVec N) (i : Nat) : BitVec N :=
  Ecc.assignBit b (N - 1 - i) (b.getLsbD (N - i) ^^ g.getLsbD (N - 1 - i))

/-- The source has bits from one on: `N - 1` is the top one. -/
def grayToBinary (g : BitVec N) : BitVec N :=
  let b := Ecc.assignBit 0 (N - 1) (g.getLsbD (N - 1))
  (List.range' 1 (N - 1)).foldl (grayToBinaryStep g) b

/-! ### Numbers and their codes -/

/-- The bits of `b` from `low` on are those of a number with the code `g`. -/
def DecodedFrom (low : Nat) (g b : BitVec N) : Prop :=
  ∀ i, low ≤ i → b.getLsbD i = (b.getLsbD (i + 1) ^^ g.getLsbD i)

theorem getLsbD_binaryToGray (b : BitVec N) (i : Nat) :
    (binaryToGray b).getLsbD i = (b.getLsbD i ^^ b.getLsbD (i + 1)) := by
  rw [binaryToGray, BitVec.getLsbD_xor, BitVec.getLsbD_ushiftRight, Nat.add_comm 1 i]

theorem decodedFrom_zero_iff (g b : BitVec N) : DecodedFrom 0 g b ↔ binaryToGray b = g := by
  constructor
  · intro h
    apply BitVec.eq_of_getLsbD_eq
    intro i _
    rw [getLsbD_binaryToGray, h i (Nat.zero_le i), Bool.xor_right_comm, Bool.xor_self,
      Bool.false_xor]
  · intro h i _
    rw [← h, getLsbD_binaryToGray, Bool.xor_left_comm, Bool.xor_self, Bool.xor_false]

/-- A code belongs to one number. The induction goes down from the top bit. -/
theorem DecodedFrom.unique {g b b' : BitVec N} (h : DecodedFrom 0 g b)
    (h' : DecodedFrom 0 g b') : b = b' := by
  have hdown : ∀ k i, N ≤ i + k → b.getLsbD i = b'.getLsbD i := by
    intro k
    induction k with
    | zero =>
        intro i hi
        rw [BitVec.getLsbD_of_ge b i hi, BitVec.getLsbD_of_ge b' i hi]
    | succ k ih =>
        intro i hi
        rw [h i (Nat.zero_le i), h' i (Nat.zero_le i), ih (i + 1) (by omega)]
  apply BitVec.eq_of_getLsbD_eq
  intro i _
  exact hdown N i (Nat.le_add_left N i)

/-! ### The loop -/

/-- A turn finds the bit below those that are found. -/
theorem DecodedFrom.step {g b : BitVec N} {i : Nat} (hi : 1 ≤ i ∧ i < N)
    (h : DecodedFrom (N - i) g b) : DecodedFrom (N - 1 - i) g (grayToBinaryStep g b i) := by
  intro j hj
  have habove : ∀ k, N - i ≤ k → (grayToBinaryStep g b i).getLsbD k = b.getLsbD k := by
    intro k hk
    rw [grayToBinaryStep, Ecc.getLsbD_assignBit, if_neg (by omega)]
  rw [habove (j + 1) (by omega)]
  by_cases hnew : j = N - 1 - i
  · have hnext : j + 1 = N - i := by omega
    rw [grayToBinaryStep, Ecc.getLsbD_assignBit, if_pos ⟨hnew, by omega⟩, hnext, hnew]
  · rw [habove j (by omega)]
    exact h j (by omega)

/-- Above the top bit all bits are zero. -/
theorem decodedFrom_of_le {low : Nat} (hlow : N ≤ low) (g b : BitVec N) : DecodedFrom low g b := by
  intro i hi
  rw [BitVec.getLsbD_of_ge b i (by omega), BitVec.getLsbD_of_ge b (i + 1) (by omega),
    BitVec.getLsbD_of_ge g i (by omega), Bool.xor_false]

/-- The top bit of a number is that of its code. -/
theorem decodedFrom_top (g : BitVec N) (hN : 0 < N) :
    DecodedFrom (N - 1) g (Ecc.assignBit 0 (N - 1) (g.getLsbD (N - 1))) := by
  intro i hi
  by_cases htop : i = N - 1
  · rw [Ecc.getLsbD_assignBit, if_pos ⟨htop, by omega⟩, BitVec.getLsbD_of_ge _ (i + 1) (by omega),
      Bool.false_xor, htop]
  · exact decodedFrom_of_le (Nat.le_refl N) g _ i (by omega)

theorem decodedFrom_turns (g : BitVec N) (turns : Nat) (hturns : turns < N) :
    DecodedFrom (N - 1 - turns) g ((List.range' 1 turns).foldl (grayToBinaryStep g)
      (Ecc.assignBit 0 (N - 1) (g.getLsbD (N - 1)))) := by
  induction turns with
  | zero => exact decodedFrom_top g hturns
  | succ turns ih =>
      have hfound := ih (by omega)
      rw [List.range'_concat, List.foldl_append, List.foldl_cons, List.foldl_nil, Nat.one_mul,
        Nat.add_comm 1 turns]
      apply DecodedFrom.step ⟨Nat.le_add_left 1 turns, hturns⟩
      rw [Nat.sub_add_eq, Nat.sub_right_comm]
      exact hfound

theorem decodedFrom_grayToBinary (g : BitVec N) : DecodedFrom 0 g (grayToBinary g) := by
  by_cases hN : N = 0
  · exact decodedFrom_of_le (Nat.le_of_eq hN) g _
  · have hfound := decodedFrom_turns g (N - 1) (by omega)
    rw [Nat.sub_self] at hfound
    exact hfound

/-- Decoding undoes encoding and encoding undoes decoding. -/
theorem gray_round_trip :
    (∀ b : BitVec N, grayToBinary (binaryToGray b) = b) ∧
      ∀ g : BitVec N, binaryToGray (grayToBinary g) = g := by
  refine ⟨fun b => ?_, fun g => ?_⟩
  · exact (decodedFrom_grayToBinary _).unique ((decodedFrom_zero_iff _ b).mpr rfl)
  · exact (decodedFrom_zero_iff g _).mp (decodedFrom_grayToBinary g)

end Userworks.E16
