import Mathlib.Data.Finset.SymmDiff
import Mathlib.Data.Fintype.Basic

/-!
A bit vector as the characteristic vector of a set of positions, and the set
operations that the operations on bits stand for.
-/
namespace Userworks
open scoped symmDiff

variable {n : Nat}

/-- The positions whose bits are set. -/
def members (b : BitVec n) : Finset (Fin n) := Finset.univ.filter fun i => b.getLsbD i

@[simp] theorem mem_members {b : BitVec n} {i : Fin n} : i ∈ members b ↔ b.getLsbD i = true := by
  simp [members]

theorem members_injective : Function.Injective (members (n := n)) := by
  intro a b h
  apply BitVec.eq_of_getLsbD_eq
  intro i hi
  have hmem : ⟨i, hi⟩ ∈ members a ↔ ⟨i, hi⟩ ∈ members b := by rw [h]
  rw [mem_members, mem_members] at hmem
  exact Bool.eq_iff_iff.mpr hmem

theorem members_zero : members (0 : BitVec n) = ∅ := by
  ext i
  simp

theorem members_allOnes : members (BitVec.allOnes n) = Finset.univ := by
  ext i
  simp

theorem members_not (b : BitVec n) : members (~~~b) = (members b)ᶜ := by
  ext i
  simp

theorem members_and (a b : BitVec n) : members (a &&& b) = members a ∩ members b := by
  ext i
  simp

theorem members_or (a b : BitVec n) : members (a ||| b) = members a ∪ members b := by
  ext i
  simp

theorem members_xor (a b : BitVec n) : members (a ^^^ b) = members a ∆ members b := by
  ext i
  rw [mem_members, BitVec.getLsbD_xor, Finset.mem_symmDiff, mem_members, mem_members]
  cases a.getLsbD i <;> cases b.getLsbD i <;> simp

theorem members_twoPow (i : Fin n) : members (BitVec.twoPow n i) = {i} := by
  ext j
  simp [Fin.ext_iff, eq_comm]

theorem members_insert (b : BitVec n) (i : Fin n) :
    members (b ||| BitVec.twoPow n i) = insert i (members b) := by
  rw [members_or, members_twoPow, Finset.union_comm, Finset.insert_eq]

theorem members_erase (b : BitVec n) (i : Fin n) :
    members (b &&& ~~~BitVec.twoPow n i) = (members b).erase i := by
  rw [members_and, members_not, members_twoPow, Finset.erase_eq, Finset.sdiff_eq_inter_compl]

/-- Two sets with one result for intersection and symmetric difference are empty. -/
theorem inter_eq_symmDiff_iff {α : Type} [DecidableEq α] {s t : Finset α} :
    s ∩ t = s ∆ t ↔ s = ∅ ∧ t = ∅ := by
  constructor
  · intro h
    have hboth : ∀ a, a ∉ s ∧ a ∉ t := by
      intro a
      have ha := Finset.ext_iff.mp h a
      rw [Finset.mem_inter, Finset.mem_symmDiff] at ha
      tauto
    exact ⟨Finset.eq_empty_of_forall_notMem fun a => (hboth a).1,
      Finset.eq_empty_of_forall_notMem fun a => (hboth a).2⟩
  · intro h
    rw [h.1, h.2]
    rfl

end Userworks
