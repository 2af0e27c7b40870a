import Mathlib.Data.List.Basic

/-!
Painting cells of an array of bit patterns: each stroke ORs a pattern into one
cell. The result depends on the strokes as a set only, so loops that paint may
be reordered and repeated.
-/
namespace Userworks

variable {w : Nat}

def paint (cells : List (BitVec w)) (strokes : List (Nat × BitVec w)) : List (BitVec w) :=
  strokes.foldl (fun cells stroke => cells.modify stroke.1 (· ||| stroke.2)) cells

@[simp] theorem length_paint (cells : List (BitVec w)) (strokes : List (Nat × BitVec w)) :
    (paint cells strokes).length = cells.length := by
  induction strokes generalizing cells with
  | nil => rfl
  | cons stroke strokes ih =>
      rw [paint, List.foldl_cons, ← paint, ih, List.length_modify]

theorem paint_append (cells : List (BitVec w)) (as bs : List (Nat × BitVec w)) :
    paint cells (as ++ bs) = paint (paint cells as) bs :=
  List.foldl_append

/-- A bit of a cell is set if it was set before or some stroke sets it. -/
theorem getLsbD_paint (cells : List (BitVec w)) (strokes : List (Nat × BitVec w))
    (t i : Nat) (ht : t < cells.length) :
    ((paint cells strokes).getD t 0).getLsbD i = true ↔
      (cells.getD t 0).getLsbD i = true ∨
        ∃ stroke ∈ strokes, stroke.1 = t ∧ stroke.2.getLsbD i = true := by
  induction strokes generalizing cells with
  | nil => simp [paint]
  | cons stroke strokes ih =>
      have hcell : (cells.modify stroke.1 (· ||| stroke.2)).getD t 0 =
          if stroke.1 = t then cells.getD t 0 ||| stroke.2 else cells.getD t 0 := by
        simp only [List.getD_eq_getElem?_getD, List.getElem?_modify, List.getElem?_eq_getElem ht]
        split <;> simp
      have hstep := ih (cells.modify stroke.1 (· ||| stroke.2)) (by simpa using ht)
      rw [paint, List.foldl_cons, ← paint, hstep, hcell]
      by_cases hs : stroke.1 = t
      · simp [hs, or_assoc]
      · simp [hs]

end Userworks
