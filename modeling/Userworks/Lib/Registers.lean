import Mathlib.Data.Set.Insert
import Mathlib.Logic.Function.Basic

/-!
Registers that are written through a network. A write that was sent may come late, or
once more, so what is known of a register is what it may hold now and what may still be
on the way to it.
-/
namespace Userworks

variable {ι α : Type}

structure Registers (ι α : Type) where
  now : ι → Set α
  late : ι → Set α
  late_subset : ∀ i, late i ⊆ now i

namespace Registers

/-- Nothing is on the way. -/
def quiet (memory : ι → α) : Registers ι α where
  now i := {memory i}
  late _ := ∅
  late_subset _ := Set.empty_subset _

variable [DecidableEq ι]

/-- A write was sent. If it was acknowledged, it has been done since; otherwise it may have
been done, or may still come. -/
def write (regs : Registers ι α) (i : ι) (x : α) (acknowledged : Bool) : Registers ι α where
  now := Function.update regs.now i
    (insert x (if acknowledged then regs.late i else regs.now i))
  late := Function.update regs.late i (insert x (regs.late i))
  late_subset := by
    intro j
    by_cases hj : j = i
    · subst hj
      rw [Function.update_self, Function.update_self]
      apply Set.insert_subset_insert
      split
      · exact subset_rfl
      · exact regs.late_subset j
    · rw [Function.update_of_ne hj, Function.update_of_ne hj]
      exact regs.late_subset j

variable (regs : Registers ι α) {i j : ι} {x : α} {acknowledged : Bool}

@[simp] theorem now_write_self : (regs.write i x acknowledged).now i =
    insert x (if acknowledged then regs.late i else regs.now i) :=
  Function.update_self _ _ _

@[simp] theorem late_write_self :
    (regs.write i x acknowledged).late i = insert x (regs.late i) :=
  Function.update_self _ _ _

theorem now_write_of_ne (h : j ≠ i) : (regs.write i x acknowledged).now j = regs.now j :=
  Function.update_of_ne h _ _

theorem late_write_of_ne (h : j ≠ i) : (regs.write i x acknowledged).late j = regs.late j :=
  Function.update_of_ne h _ _

/-- A write without an acknowledgement only adds possibilities. -/
theorem now_subset_write (i j : ι) (x : α) : regs.now j ⊆ (regs.write i x false).now j := by
  by_cases hj : j = i
  · subst hj
    rw [now_write_self, if_neg Bool.false_ne_true]
    exact Set.subset_insert x _
  · rw [now_write_of_ne regs hj]

theorem late_subset_write (i j : ι) (x : α) : regs.late j ⊆ (regs.write i x false).late j := by
  by_cases hj : j = i
  · subst hj
    rw [late_write_self]
    exact Set.subset_insert x _
  · rw [late_write_of_ne regs hj]

end Registers

end Userworks
