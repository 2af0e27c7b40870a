import Mathlib.Data.List.Basic

/-!
Fallible folds seen through a measure. When a step fails exactly where a guard
on the measure of its state fails, and moves the measure in a way that does not
look at the state, then a whole run fails exactly where a run on measures meets
a closed guard: whether it succeeds is a property of the inputs alone.
-/
namespace Userworks

variable {σ μ α ε : Type}

/-- Every step of the run on measures passes its guard. -/
def Guarded (guard : μ → α → Prop) (next : μ → α → μ) : μ → List α → Prop
  | _, [] => True
  | m, a :: as => guard m a ∧ Guarded guard next (next m a) as

instance Guarded.decidable (guard : μ → α → Prop) (next : μ → α → μ)
    [∀ m a, Decidable (guard m a)] : ∀ m as, Decidable (Guarded guard next m as)
  | _, [] => isTrue trivial
  | m, a :: as =>
      have := Guarded.decidable guard next (next m a) as
      inferInstanceAs (Decidable (guard m a ∧ Guarded guard next (next m a) as))

section Runs

variable {guard : μ → α → Prop} {next : μ → α → μ}

theorem guarded_iff_split (m : μ) (as : List α) :
    Guarded guard next m as ↔
      ∀ before a after, as = before ++ a :: after → guard (before.foldl next m) a := by
  induction as generalizing m with
  | nil => simp [Guarded]
  | cons a as ih =>
      rw [Guarded, ih]
      constructor
      · intro h before b after heq
        cases before with
        | nil =>
            cases heq
            exact h.1
        | cons c before =>
            cases heq
            exact h.2 before b after rfl
      · intro h
        exact ⟨h [] a as rfl, fun before b after heq => h (a :: before) b after (by rw [heq]; rfl)⟩

/-- A run over the inputs that are kept is a run over all of them in which the
others are let through and change nothing. -/
theorem guarded_filter (keep : α → Bool) (m : μ) (as : List α) :
    Guarded guard next m (as.filter keep) ↔
      Guarded (fun m a => keep a = true → guard m a) (fun m a => if keep a then next m a else m)
        m as := by
  induction as generalizing m with
  | nil => exact Iff.rfl
  | cons a as ih =>
      cases hkeep : keep a with
      | true =>
          rw [List.filter_cons_of_pos hkeep, Guarded, Guarded, ih]
          simp only [hkeep, forall_const, if_true]
      | false =>
          rw [List.filter_cons_of_neg (by simp [hkeep]), Guarded, ih]
          simp only [hkeep, Bool.false_eq_true, false_implies, true_and, if_false]

end Runs

/-- The measure says exactly when a step is defined and where it leads. -/
structure Measured (step : σ → α → Except ε σ) (measure : σ → μ) (guard : μ → α → Prop)
    (next : μ → α → μ) : Prop where
  passed : ∀ s a, guard (measure s) a →
    ∃ s', step s a = .ok s' ∧ measure s' = next (measure s) a
  refused : ∀ s a, ¬ guard (measure s) a → ∃ fault, step s a = .error fault

namespace Measured

variable {step : σ → α → Except ε σ} {measure : σ → μ} {guard : μ → α → Prop}
  {next : μ → α → μ}

theorem foldlM_defined_iff (h : Measured step measure guard next) (s : σ) (as : List α) :
    (∃ s', as.foldlM step s = .ok s') ↔ Guarded guard next (measure s) as := by
  induction as generalizing s with
  | nil => exact iff_of_true ⟨s, rfl⟩ trivial
  | cons a as ih =>
      rw [Guarded, List.foldlM_cons]
      by_cases hguard : guard (measure s) a
      · obtain ⟨s', hstep, hnext⟩ := h.passed s a hguard
        rw [hstep, ← hnext, ← ih s']
        exact (and_iff_right hguard).symm
      · obtain ⟨fault, hstep⟩ := h.refused s a hguard
        rw [hstep]
        constructor
        · intro hrun
          obtain ⟨s', hs'⟩ := hrun
          cases hs'
        · intro hpass
          exact absurd hpass.1 hguard

end Measured
end Userworks
