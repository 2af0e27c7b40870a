import Mathlib.Data.List.Induction

/-!
Items dealt to lanes by a schedule. The item at position `k` goes to lane `g k`.
A sequence is known from its lanes: two sequences that go along the same lanes
are prefixes of one another.
-/
namespace Userworks

variable {α β ι : Type} [DecidableEq ι] {g : Nat → ι} {i : ι}

/-- The items of lane `i`, when the first item stands at position `k`. -/
def dealt (g : Nat → ι) (i : ι) : Nat → List α → List α
  | _, [] => []
  | k, x :: xs => if g k = i then x :: dealt g i (k + 1) xs else dealt g i (k + 1) xs

def lane (g : Nat → ι) (i : ι) (xs : List α) : List α := dealt g i 0 xs

theorem dealt_append (g : Nat → ι) (i : ι) (k : Nat) (xs ys : List α) :
    dealt g i k (xs ++ ys) = dealt g i k xs ++ dealt g i (k + xs.length) ys := by
  induction xs generalizing k with
  | nil => rfl
  | cons x xs ih =>
      rw [List.cons_append, dealt, dealt, ih, List.length_cons, Nat.add_assoc, Nat.add_comm 1]
      split
      · rfl
      · rfl

/-- How many items a lane has is known from how many there are. -/
theorem length_dealt (g : Nat → ι) (i : ι) (k : Nat) (xs : List α) (ys : List β)
    (h : xs.length = ys.length) : (dealt g i k xs).length = (dealt g i k ys).length := by
  induction xs generalizing k ys with
  | nil => rw [List.length_eq_zero_iff.mp h.symm, dealt, dealt]; rfl
  | cons x xs ih =>
      cases ys with
      | nil => cases h
      | cons y ys =>
          have htail := ih (k + 1) ys (Nat.succ.inj h)
          rw [dealt, dealt]
          split
          · rw [List.length_cons, List.length_cons, htail]
          · exact htail

@[simp] theorem lane_nil (g : Nat → ι) (i : ι) : lane g i ([] : List α) = [] := rfl

theorem lane_concat_self {xs : List α} (h : g xs.length = i) (x : α) :
    lane g i (xs ++ [x]) = lane g i xs ++ [x] := by
  rw [lane, dealt_append, Nat.zero_add, dealt, if_pos h]
  rfl

theorem lane_concat_other {xs : List α} (h : g xs.length ≠ i) (x : α) :
    lane g i (xs ++ [x]) = lane g i xs := by
  rw [lane, dealt_append, Nat.zero_add, dealt, if_neg h]
  exact List.append_nil _

theorem lane_mono (g : Nat → ι) (i : ι) {xs ys : List α} (h : xs <+: ys) :
    lane g i xs <+: lane g i ys := by
  obtain ⟨rest, rfl⟩ := h
  rw [lane, lane, dealt_append]
  exact List.prefix_append _ _

/-- Two sequences along the same lanes: the shorter is a prefix of the longer. -/
theorem prefix_of_lanes {lanes : ι → List α} {xs ys : List α}
    (hxs : ∀ i, lane g i xs <+: lanes i) (hys : ∀ i, lane g i ys <+: lanes i)
    (hlength : xs.length ≤ ys.length) : xs <+: ys := by
  induction xs using List.reverseRecOn with
  | nil => exact List.nil_prefix
  | append_singleton xs x ih =>
      rw [List.length_append, List.length_singleton] at hlength
      have hinit : xs <+: ys :=
        ih (fun i => (lane_mono g i (List.prefix_append xs [x])).trans (hxs i)) (by omega)
      obtain ⟨rest, rfl⟩ := hinit
      cases rest with
      | nil =>
          rw [List.append_nil] at hlength
          omega
      | cons y rest =>
          have hx := hxs (g xs.length)
          rw [lane_concat_self rfl] at hx
          have hy : lane g (g xs.length) xs ++ [y] <+: lanes (g xs.length) := by
            rw [← lane_concat_self rfl]
            refine (lane_mono g _ ?_).trans (hys _)
            exact ⟨rest, by rw [List.append_assoc, List.singleton_append]⟩
          have hsame := List.prefix_of_prefix_length_le hx hy
            (by simp)
          have heq := (List.prefix_append_right_inj _).mp hsame
          rw [List.singleton_prefix_cons_iff] at heq
          rw [heq]
          exact ⟨rest, by rw [List.append_assoc, List.singleton_append]⟩

/-- A sequence whose lanes are prefixes of those of another one is a prefix of it. -/
theorem prefix_of_each_lane {xs ys : List α} (h : ∀ i, lane g i xs <+: lane g i ys) :
    xs <+: ys := by
  by_cases hlength : xs.length ≤ ys.length
  · exact prefix_of_lanes h (fun i => List.prefix_rfl) hlength
  · have hys : ys <+: xs := prefix_of_lanes (fun i => List.prefix_rfl) h (by omega)
    obtain ⟨rest, rfl⟩ := hys
    cases rest with
    | nil => exact absurd (by simp) hlength
    | cons x rest =>
        have hlonger : lane g (g ys.length) ys ++ [x] <+: lane g (g ys.length) ys := by
          rw [← lane_concat_self rfl]
          refine (lane_mono g _ ?_).trans (h _)
          exact ⟨rest, by rw [List.append_assoc, List.singleton_append]⟩
        have hle := hlonger.length_le
        rw [List.length_append, List.length_singleton] at hle
        omega

/-! ### Positions in a lane -/

/-- How many earlier positions the schedule deals to the lane of `k`. -/
def turn (g : Nat → ι) (k : Nat) : Nat := (lane g (g k) (List.range k)).length

theorem lane_turn {xs : List α} {k : Nat} (h : k < xs.length) :
    (lane g (g k) xs)[turn g k]? = some xs[k] := by
  have hlength : (xs.take k).length = k := List.length_take_of_le (Nat.le_of_lt h)
  have hsplit : xs = xs.take k ++ xs[k] :: xs.drop (k + 1) := by
    rw [List.getElem_cons_drop, List.take_append_drop]
  have hturn : turn g k = (lane g (g k) (xs.take k)).length :=
    length_dealt g (g k) 0 _ _ (by rw [hlength, List.length_range])
  conv_lhs => rw [hsplit]
  rw [hturn, lane, dealt_append, hlength, Nat.zero_add, dealt, if_pos rfl, ← lane,
    List.getElem?_append_right (Nat.le_refl _), Nat.sub_self]
  rfl

/-- What stands in a lane stands at some position, and that is its turn. -/
theorem exists_turn {xs : List α} {j : Nat} (h : j < (lane g i xs).length) :
    ∃ k, ∃ hk : k < xs.length, g k = i ∧ turn g k = j ∧ (lane g i xs)[j] = xs[k] := by
  induction xs using List.reverseRecOn with
  | nil => cases h
  | append_singleton xs x ih =>
      by_cases hlane : g xs.length = i
      · simp only [lane_concat_self hlane] at h ⊢
        rw [List.length_append, List.length_singleton] at h
        by_cases hj : j < (lane g i xs).length
        · obtain ⟨k, hk, hg, hturn, heq⟩ := ih hj
          refine ⟨k, by simp; omega, hg, hturn, ?_⟩
          rw [List.getElem_append_left hj, heq, List.getElem_append_left hk]
        · have hlast : j = (lane g i xs).length := by omega
          refine ⟨xs.length, by simp, hlane, ?_, ?_⟩
          · rw [turn, hlane, hlast]
            exact length_dealt g i 0 _ _ List.length_range
          · rw [List.getElem_append_right (by omega), List.getElem_append_right (Nat.le_refl _)]
            simp
      · simp only [lane_concat_other hlane] at h ⊢
        obtain ⟨k, hk, hg, hturn, heq⟩ := ih h
        exact ⟨k, by simp; omega, hg, hturn, by rw [heq, List.getElem_append_left hk]⟩

/-- Within a lane, positions and turns grow together. -/
theorem turn_lt {k k' : Nat} (hlane : g k = g k') (h : k < k') : turn g k < turn g k' := by
  have hmem : k < (List.range k').length := by rwa [List.length_range]
  have hturn := lane_turn (g := g) hmem
  rw [hlane] at hturn
  exact (List.getElem?_eq_some_iff.mp hturn).1

end Userworks
