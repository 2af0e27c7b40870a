import Mathlib.Algebra.Group.Nat.Even
import Mathlib.Data.Finset.Card
import Mathlib.Data.List.Range
import Mathlib.Data.Nat.Bitwise
import Mathlib.Tactic.Ring

/-!
Parity checks. The parity of a list of bits is their exclusive or. A check that
looks at the positions whose own number has bit `b` set finds, over all `b`, the
bits in which an odd number of changed positions agree to differ.
-/
namespace Userworks

variable {α : Type}

def parity (l : List Bool) : Bool := l.foldr xor false

@[simp] theorem parity_nil : parity [] = false := rfl

@[simp] theorem parity_cons (b : Bool) (l : List Bool) : parity (b :: l) = (b ^^ parity l) := rfl

@[simp] theorem parity_append (l l' : List Bool) : parity (l ++ l') = (parity l ^^ parity l') := by
  induction l with
  | nil => simp
  | cons b l ih => simp [ih]

/-- Parity is linear. -/
theorem parity_map_xor (f g : α → Bool) (l : List α) :
    parity (l.map fun a => f a ^^ g a) = (parity (l.map f) ^^ parity (l.map g)) := by
  induction l with
  | nil => rfl
  | cons a l ih =>
      simp only [List.map_cons, parity_cons, ih]
      cases f a <;> cases g a <;> simp

theorem parity_map_filter (f p : α → Bool) (l : List α) :
    parity ((l.filter p).map f) = parity (l.map fun a => p a && f a) := by
  induction l with
  | nil => rfl
  | cons a l ih => cases hp : p a <;> simp [hp, ih]

theorem parity_map_eq_odd (f : α → Bool) (l : List α) :
    parity (l.map f) = decide (Odd (l.countP f)) := by
  induction l with
  | nil => rfl
  | cons a l ih =>
      cases hf : f a with
      | false => simp [hf, ih]
      | true => simp [hf, ih, Nat.odd_add_one, ← Nat.not_even_iff_odd]

/-- The parity over a range counts the positions that are set. -/
theorem parity_range (f : Nat → Bool) (n : Nat) :
    parity ((List.range n).map f) = decide (Odd ((Finset.range n).filter (f ·)).card) := by
  have hrange : Finset.range n = (List.range n).toFinset := by
    ext x
    simp
  have hcard : ((Finset.range n).filter (f ·)).card = (List.range n).countP f := by
    rw [hrange, List.nodup_range.card_eq_countP]
    simp
  rw [hcard, parity_map_eq_odd]

/-! The positions with bit `s` set come in blocks of `2 ^ s`. -/

theorem filter_testBit_range_succ (s : Nat) :
    (List.range (2 ^ (s + 1))).filter (·.testBit s) = (List.range (2 ^ s)).map (2 ^ s + ·) := by
  rw [Nat.pow_succ, Nat.mul_two, List.range_add, List.filter_append]
  have hlow : (List.range (2 ^ s)).filter (·.testBit s) = [] := by
    rw [List.filter_eq_nil_iff]
    intro x hx
    simp [Nat.testBit_lt_two_pow (List.mem_range.mp hx)]
  have hhigh : ((List.range (2 ^ s)).map (2 ^ s + ·)).filter (·.testBit s) =
      (List.range (2 ^ s)).map (2 ^ s + ·) := by
    rw [List.filter_eq_self]
    intro x hx
    obtain ⟨k, hk, rfl⟩ := List.mem_map.mp hx
    simp [Nat.testBit_two_pow_add_eq, Nat.testBit_lt_two_pow (List.mem_range.mp hk)]
  rw [hlow, hhigh, List.nil_append]

theorem filter_testBit_range (s blocks : Nat) :
    (List.range (2 ^ (s + 1) * blocks)).filter (·.testBit s) =
      (List.range blocks).flatMap fun j =>
        (List.range (2 ^ s)).map fun k => 2 ^ (s + 1) * j + 2 ^ s + k := by
  induction blocks with
  | zero => rfl
  | succ blocks ih =>
      have hblock : ((List.range (2 ^ (s + 1))).map (2 ^ (s + 1) * blocks + ·)).filter
          (·.testBit s) =
          (List.range (2 ^ s)).map fun k => 2 ^ (s + 1) * blocks + 2 ^ s + k := by
        have hshift : ((·.testBit s) ∘ (2 ^ (s + 1) * blocks + ·)) = fun x => Nat.testBit x s := by
          funext x
          have heven : 2 ^ (s + 1) * blocks = 2 ^ s * (2 * blocks) := by ring
          simp [heven, Nat.testBit_mul_two_pow_add_eq]
        rw [List.filter_map, hshift, filter_testBit_range_succ, List.map_map]
        apply List.map_congr_left
        intro k _
        simp [Nat.add_assoc]
      rw [Nat.mul_succ, List.range_add, List.filter_append, ih, hblock, List.range_succ]
      simp

/-! ### Positions that are told apart by their checks -/

/-- The checks that an odd number of positions of `changed` fall under. -/
def oddChecks (changed : Finset Nat) (width : Nat) : Finset Nat :=
  (Finset.range width).filter fun b => Odd (changed.filter (·.testBit b)).card

theorem exists_testBit {x width : Nat} (h : x < 2 ^ width) (hx : x ≠ 0) :
    ∃ b < width, x.testBit b = true := by
  obtain ⟨b, hb⟩ := Nat.exists_testBit_of_ne_zero hx
  refine ⟨b, ?_, hb⟩
  by_contra hle
  exact absurd hb (by simp [Nat.testBit_lt_two_pow (h.trans_le (Nat.pow_le_pow_right (by omega)
    (Nat.not_lt.mp hle)))])

/-- A number that is not a power of two has two bits set. -/
theorem two_testBits {x width : Nat} (h : x < 2 ^ width) (hx : x ≠ 0) (hpow : ∀ b, x ≠ 2 ^ b) :
    ∃ a < width, ∃ b < width, a ≠ b ∧ x.testBit a = true ∧ x.testBit b = true := by
  obtain ⟨a, ha, hbit⟩ := exists_testBit h hx
  have hrest : x ^^^ 2 ^ a ≠ 0 := by
    intro heq
    exact hpow a (Nat.xor_eq_zero_iff.mp heq)
  obtain ⟨b, hb, hbit'⟩ := exists_testBit
    (Nat.xor_lt_two_pow h (Nat.pow_lt_pow_right (by omega) ha)) hrest
  rw [Nat.testBit_xor, Nat.testBit_two_pow] at hbit'
  have hne : a ≠ b := by
    intro hab
    subst hab
    simp [hbit] at hbit'
  exact ⟨a, ha, b, hb, hne, hbit, by simpa [hne] using hbit'⟩

/-- Positions that are no powers of two: with the checks they fall under, three bits differ. -/
theorem three_le_card_add_oddChecks {changed : Finset Nat} {width : Nat}
    (hne : changed.Nonempty) (hlt : ∀ x ∈ changed, x < 2 ^ width) (hzero : 0 ∉ changed)
    (hpow : ∀ b, 2 ^ b ∉ changed) :
    3 ≤ changed.card + (oddChecks changed width).card := by
  have hpos := hne.card_pos
  by_cases hone : changed.card = 1
  · obtain ⟨x, rfl⟩ := Finset.card_eq_one.mp hone
    obtain ⟨a, ha, b, hb, hab, hbita, hbitb⟩ := two_testBits (hlt x (by simp))
      (by rintro rfl; simp at hzero) (by rintro b rfl; exact hpow b (by simp))
    have hsub : {a, b} ⊆ oddChecks {x} width := by
      intro c hc
      rcases Finset.mem_insert.mp hc with rfl | hc
      · simp [oddChecks, ha, hbita, Finset.filter_singleton]
      · rw [Finset.mem_singleton.mp hc]
        simp [oddChecks, hb, hbitb, Finset.filter_singleton]
    have := Finset.card_le_card hsub
    rw [Finset.card_pair hab] at this
    simp only [Finset.card_singleton]
    omega
  by_cases htwo : changed.card = 2
  · obtain ⟨x, y, hxy, rfl⟩ := Finset.card_eq_two.mp htwo
    obtain ⟨b, hb, hbit⟩ := exists_testBit (Nat.xor_lt_two_pow (hlt x (by simp)) (hlt y (by simp)))
      (fun heq => hxy (Nat.xor_eq_zero_iff.mp heq))
    have hmem : b ∈ oddChecks {x, y} width := by
      rw [Nat.testBit_xor] at hbit
      cases hx : x.testBit b <;> cases hy : y.testBit b <;>
        simp_all [oddChecks, Finset.filter_insert, Finset.filter_singleton]
    have := Finset.card_pos.mpr ⟨b, hmem⟩
    omega
  omega

end Userworks
