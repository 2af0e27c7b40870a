import Mathlib.Data.List.Range

/-!
Slots in a circle. A window of a circle of `n` slots is what a walk of `len`
steps from `start` sees. It loses its first slot when the start moves on, gains
the next one when it grows, and does not see a change outside of it.
-/
namespace Userworks

variable {α : Type}

def window (slot : Nat → α) (n start : Nat) : Nat → List α
  | 0 => []
  | len + 1 => slot (start % n) :: window slot n (start + 1) len

theorem window_mod (slot : Nat → α) (n start len : Nat) :
    window slot n (start % n) len = window slot n start len := by
  induction len generalizing start with
  | zero => rfl
  | succ len ih =>
      rw [window, window, Nat.mod_mod, ← ih (start % n + 1), ← ih (start + 1), Nat.mod_add_mod]

theorem window_concat (slot : Nat → α) (n start len : Nat) :
    window slot n start (len + 1) = window slot n start len ++ [slot ((start + len) % n)] := by
  induction len generalizing start with
  | zero => rfl
  | succ len ih =>
      rw [window, ih, window, List.cons_append, Nat.add_right_comm start 1 len, Nat.add_assoc]

/-- Two walks that meet the same slots see the same. -/
theorem window_congr {f g : Nat → α} (n start len : Nat)
    (h : ∀ k < len, f ((start + k) % n) = g ((start + k) % n)) :
    window f n start len = window g n start len := by
  induction len generalizing start with
  | zero => rfl
  | succ len ih =>
      have htail : window f n (start + 1) len = window g n (start + 1) len := by
        apply ih
        intro k hk
        rw [Nat.add_assoc, Nat.add_comm 1 k]
        exact h (k + 1) (by omega)
      have hhead : f (start % n) = g (start % n) := h 0 (by omega)
      rw [window, window, htail, hhead]

/-- Within one revolution no slot is met twice. -/
theorem ring_ne {n i j : Nat} (start : Nat) (hij : i < j) (hj : j < i + n) :
    (start + i) % n ≠ (start + j) % n := by
  intro heq
  have hzero := Nat.sub_mod_eq_zero_of_mod_eq heq.symm
  rw [Nat.add_sub_add_left, Nat.mod_eq_of_lt (by omega)] at hzero
  omega

theorem window_update_outside {f g : Nat → α} {n start len j : Nat} (hlen : len ≤ j)
    (hj : j < n) (h : ∀ i, i ≠ (start + j) % n → f i = g i) :
    window f n start len = window g n start len := by
  apply window_congr
  intro k hk
  exact h _ (ring_ne start (by omega) (by omega))

end Userworks
