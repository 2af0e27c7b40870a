import Mathlib.Data.List.Chain

/-!
Streaks: the newest entries of a history that go with one another.

Histories are written with their newest entry first.
-/
namespace Userworks

section Streak

variable {α : Type} (R : α → α → Prop) [DecidableRel R]

/-- The number of entries from the newest one on, up to the first that does not go with
the one before it. -/
def streak : List α → Nat
  | [] => 0
  | [_] => 1
  | newer :: older :: rest => if R newer older then streak (older :: rest) + 1 else 1

variable {R}

theorem streak_pos (newest : α) (rest : List α) : 0 < streak R (newest :: rest) := by
  cases rest with
  | nil => exact Nat.zero_lt_one
  | cons older rest =>
      rw [streak]
      split
      · exact Nat.succ_pos _
      · exact Nat.zero_lt_one

theorem le_streak_iff (n : Nat) (history : List α) :
    n ≤ streak R history ↔ n ≤ history.length ∧ List.IsChain R (history.take n) := by
  induction history generalizing n with
  | nil => simp [streak]
  | cons newer rest ih =>
      match n, rest with
      | 0, rest => simp
      | 1, rest =>
          have hpos : 1 ≤ streak R (newer :: rest) := streak_pos newer rest
          simp [hpos]
      | n + 2, [] =>
          simp [streak]
      | n + 2, older :: rest =>
          have hrest := ih (n + 1)
          rw [List.take_succ_cons, List.length_cons] at hrest
          rw [streak, List.take_succ_cons, List.take_succ_cons, List.isChain_cons_cons,
            List.length_cons, List.length_cons]
          by_cases halike : R newer older
          · rw [if_pos halike, Nat.succ_le_succ_iff, hrest, Nat.succ_le_succ_iff,
              Nat.succ_le_succ_iff, Nat.succ_le_succ_iff]
            simp only [halike, true_and]
          · rw [if_neg halike]
            simp only [halike, false_and, and_false, iff_false]
            omega

/-- A relation that also asks for equal values of `f` holds along a history exactly if
all its values of `f` are the newest one. -/
theorem isChain_same_and_iff {β : Type} (f : α → β) (S : α → α → Prop) (newest : α)
    (rest : List α) :
    List.IsChain (fun newer older => f newer = f older ∧ S newer older) (newest :: rest) ↔
      (∀ a ∈ newest :: rest, f a = f newest) ∧ List.IsChain S (newest :: rest) := by
  induction rest generalizing newest with
  | nil => simp
  | cons older rest ih =>
      rw [List.isChain_cons_cons, List.isChain_cons_cons, ih, @List.forall_mem_cons _ _ newest]
      constructor
      · intro h
        obtain ⟨⟨hsame, hfirst⟩, hall, hrest⟩ := h
        exact ⟨⟨rfl, fun a ha => (hall a ha).trans hsame.symm⟩, hfirst, hrest⟩
      · intro h
        obtain ⟨⟨-, hall⟩, hfirst, hrest⟩ := h
        have hsame := hall older List.mem_cons_self
        exact ⟨⟨hsame.symm, hfirst⟩, fun a ha => (hall a ha).trans hsame.symm, hrest⟩

end Streak
end Userworks
