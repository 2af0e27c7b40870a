import Mathlib.Data.List.Basic

/-!
Records filled by assignments. A record is known by its fields, each of which
can be assigned alone. Two runs of the same assignments over different records
end in one record exactly when the records agree on every field that is not
assigned.
-/
namespace Userworks

/-- Fields `φ` with values in `υ` that determine a record of `ρ`. -/
structure Fields (ρ φ υ : Type) [DecidableEq φ] where
  get : ρ → φ → υ
  set : ρ → φ → υ → ρ
  get_set : ∀ r f v g, get (set r f v) g = if g = f then v else get r g
  ext : ∀ r s, (∀ f, get r f = get s f) → r = s

namespace Fields

variable {ρ φ υ : Type} [DecidableEq φ] (fields : Fields ρ φ υ)

def assign : ρ → List (φ × υ) → ρ
  | r, [] => r
  | r, (f, v) :: as => assign (fields.set r f v) as

/-- A field forgets what it held as soon as it is assigned. -/
theorem get_assign_eq_iff (as : List (φ × υ)) (r s : ρ) (f : φ) :
    fields.get (fields.assign r as) f = fields.get (fields.assign s as) f ↔
      f ∈ as.map Prod.fst ∨ fields.get r f = fields.get s f := by
  induction as generalizing r s with
  | nil => simp [assign]
  | cons a as ih =>
      rw [assign, assign, ih, fields.get_set, fields.get_set, List.map_cons, List.mem_cons]
      by_cases hf : f = a.1
      · simp [hf]
      · simp [hf]

theorem assign_eq_iff (as : List (φ × υ)) (r s : ρ) :
    fields.assign r as = fields.assign s as ↔
      ∀ f, f ∉ as.map Prod.fst → fields.get r f = fields.get s f := by
  constructor
  · intro heq f hf
    have hget := (fields.get_assign_eq_iff as r s f).mp (by rw [heq])
    exact hget.resolve_left hf
  · intro h
    apply fields.ext
    intro f
    rw [get_assign_eq_iff]
    by_cases hf : f ∈ as.map Prod.fst
    · exact Or.inl hf
    · exact Or.inr (h f hf)

/-- Assignments to all the fields leave nothing of the record. -/
theorem assign_eq_of_all (as : List (φ × υ)) (hall : ∀ f, f ∈ as.map Prod.fst) (r s : ρ) :
    fields.assign r as = fields.assign s as :=
  (fields.assign_eq_iff as r s).mpr fun f hf => (hf (hall f)).elim

end Fields

end Userworks
