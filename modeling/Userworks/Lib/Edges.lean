import Mathlib.Data.List.Basic
import Mathlib.Order.Basic

/-!
Rising edges of a boolean signal sampled at the times 0, 1, ..., n: the times at
which it is true and was false one step before. The edges come in increasing
order, and every true sample of a signal that starts false is reached from an
edge without a gap.
-/
namespace Userworks

def risingEdges (p : Nat → Bool) (n : Nat) : List Nat :=
  ((List.range n).filter fun i => !p i && p (i + 1)).map (· + 1)

theorem mem_risingEdges {p : Nat → Bool} {n t : Nat} :
    t ∈ risingEdges p n ↔ 1 ≤ t ∧ t ≤ n ∧ p (t - 1) = false ∧ p t = true := by
  simp only [risingEdges, List.mem_map, List.mem_filter, List.mem_range, Bool.and_eq_true,
    Bool.not_eq_true']
  constructor
  · rintro ⟨i, ⟨hi, hlow, hhigh⟩, rfl⟩
    exact ⟨by omega, by omega, hlow, hhigh⟩
  · rintro ⟨hpos, hn, hlow, hhigh⟩
    refine ⟨t - 1, ⟨by omega, hlow, ?_⟩, by omega⟩
    rwa [Nat.sub_add_cancel hpos]

theorem risingEdges_pairwise (p : Nat → Bool) (n : Nat) :
    (risingEdges p n).Pairwise (· < ·) := by
  rw [risingEdges, List.pairwise_map]
  apply List.Pairwise.filter
  exact List.pairwise_lt_range.imp (by omega)

theorem risingEdges_congr {p q : Nat → Bool} {n : Nat} (h : ∀ t ≤ n, p t = q t) :
    risingEdges p n = risingEdges q n := by
  rw [risingEdges, risingEdges]
  congr 1
  apply List.filter_congr
  intro i hi
  rw [List.mem_range] at hi
  rw [h i (by omega), h (i + 1) (by omega)]

/-- A signal that starts false has an edge at the beginning of every true run. -/
theorem exists_edge_before {p : Nat → Bool} {n t : Nat} (hstart : p 0 = false) (ht : t ≤ n)
    (hp : p t = true) :
    ∃ s ∈ risingEdges p n, s ≤ t ∧ ∀ u, s ≤ u → u ≤ t → p u = true := by
  induction t with
  | zero => simp [hstart] at hp
  | succ t ih =>
      cases hprev : p t with
      | false =>
          refine ⟨t + 1, mem_risingEdges.mpr ⟨by omega, ht, hprev, hp⟩, Nat.le_refl _, ?_⟩
          intro u hlow hhigh
          rwa [Nat.le_antisymm hhigh hlow]
      | true =>
          obtain ⟨s, hs, hle, hrun⟩ := ih (by omega) hprev
          refine ⟨s, hs, by omega, ?_⟩
          intro u hlow hhigh
          cases Nat.lt_or_eq_of_le hhigh with
          | inl hlt =>
              exact hrun u hlow (by omega)
          | inr heq =>
              subst heq
              exact hp

/-- Every true sample is reached from an edge exactly when the signal starts
false: no edge lies at or before time zero. -/
theorem edges_reach_all_iff {p : Nat → Bool} {n : Nat} :
    (∀ t ≤ n, p t = true → ∃ s ∈ risingEdges p n, s ≤ t ∧ ∀ u, s ≤ u → u ≤ t → p u = true) ↔
      p 0 = false := by
  constructor
  · intro h
    cases hstart : p 0 with
    | false => rfl
    | true =>
        obtain ⟨s, hs, hle, -⟩ := h 0 (Nat.zero_le n) hstart
        have hpos := (mem_risingEdges.mp hs).1
        omega
  · intro hstart t ht hp
    exact exists_edge_before hstart ht hp

theorem risingEdges_eq_iff {p q : Nat → Bool} {n : Nat} :
    risingEdges p n = risingEdges q n ↔ ∀ t, 1 ≤ t → t ≤ n →
      (p (t - 1) = false ∧ p t = true ↔ q (t - 1) = false ∧ q t = true) := by
  constructor
  · intro h t hpos hn
    have hmem := iff_of_eq (congrArg (t ∈ ·) h)
    rw [mem_risingEdges, mem_risingEdges] at hmem
    simpa only [hpos, hn, true_and] using hmem
  · intro h
    rw [risingEdges, risingEdges]
    congr 1
    apply List.filter_congr
    intro i hi
    have hedge := h (i + 1) (by omega) (List.mem_range.mp hi)
    rw [Nat.add_sub_cancel] at hedge
    rw [Bool.eq_iff_iff]
    simpa only [Bool.and_eq_true, Bool.not_eq_true'] using hedge

/-- Cutting a signal by a mask keeps its edges exactly when the mask is open
wherever the signal turns on, and does not open while the signal stays on. -/
theorem risingEdges_mask_eq_iff {p mask : Nat → Bool} {n : Nat} :
    risingEdges p n = risingEdges (fun t => p t && mask t) n ↔
      ∀ t, 1 ≤ t → t ≤ n → p t = true →
        (p (t - 1) = false → mask t = true) ∧
        (p (t - 1) = true → mask t = true → mask (t - 1) = true) := by
  rw [risingEdges_eq_iff]
  refine forall_congr' fun t => forall_congr' fun _ => forall_congr' fun _ => ?_
  cases p (t - 1) <;> cases p t <;> cases mask (t - 1) <;> cases mask t <;> simp

end Userworks
