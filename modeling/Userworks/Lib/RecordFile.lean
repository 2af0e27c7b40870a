import Mathlib.Data.List.Basic

/-!
Files of records and players of them.

A file cut at any position is a list of whole records and the beginning of one
more. A player that is called until it stops plays such a file faithfully exactly
when no whole record defeats it and it is not led into the beginning of the last
one, either by that beginning itself or by a limit on the number of its calls.
-/
namespace Userworks

section Cut

variable {α β : Type} (bytes : α → List β)

/-- The records that lie wholly before the cut. -/
def whole : Nat → List α → List α
  | _, [] => []
  | cut, r :: rs =>
      if (bytes r).length ≤ cut then r :: whole (cut - (bytes r).length) rs else []

/-- The record that the cut runs through, and the number of its bytes before the cut. -/
def torn : Nat → List α → Option (α × Nat)
  | _, [] => none
  | cut, r :: rs =>
      if (bytes r).length ≤ cut then torn (cut - (bytes r).length) rs else some (r, cut)

/-- The bytes of the record that the cut runs through. -/
def tornBytes (cut : Nat) (rs : List α) : List β :=
  match torn bytes cut rs with
  | none => []
  | some (r, n) => (bytes r).take n

theorem take_flatMap_eq (cut : Nat) (rs : List α) :
    (rs.flatMap bytes).take cut = (whole bytes cut rs).flatMap bytes ++ tornBytes bytes cut rs := by
  induction rs generalizing cut with
  | nil => simp [whole, tornBytes, torn]
  | cons r rs ih =>
      rw [List.flatMap_cons, whole, tornBytes, torn]
      by_cases hfits : (bytes r).length ≤ cut
      · rw [if_pos hfits, if_pos hfits, List.flatMap_cons, List.append_assoc, ← tornBytes, ← ih,
          List.take_append, List.take_of_length_le hfits]
      · rw [if_neg hfits, if_neg hfits]
        exact List.take_append_of_le_length (Nat.le_of_not_le hfits)

theorem whole_sublist (cut : Nat) (rs : List α) : (whole bytes cut rs).Sublist rs := by
  induction rs generalizing cut with
  | nil => exact List.Sublist.refl _
  | cons r rs ih =>
      rw [whole]
      split
      · exact (ih _).cons_cons r
      · exact List.nil_sublist _

/-- What is left behind the whole records is nothing or the beginning of a record. -/
def Torn (tail : List β) : Prop :=
  tail = [] ∨ ∃ r n, n < (bytes r).length ∧ tail = (bytes r).take n

theorem torn_lt {cut : Nat} {rs : List α} {r : α} {n : Nat} (h : torn bytes cut rs = some (r, n)) :
    n < (bytes r).length := by
  induction rs generalizing cut with
  | nil => cases h
  | cons first rs ih =>
      rw [torn] at h
      split at h
      · exact ih h
      · cases h
        omega

theorem tornBytes_torn (cut : Nat) (rs : List α) : Torn bytes (tornBytes bytes cut rs) := by
  rw [tornBytes]
  cases htorn : torn bytes cut rs with
  | none => exact .inl rfl
  | some found => exact .inr ⟨found.1, found.2, torn_lt bytes htorn, rfl⟩

end Cut

section Play

variable {σ ι α γ ε : Type}

/-- Calls until one says that it was the last; the second result says that none did. -/
def playAll (call : ι → σ → Except ε (σ × Bool)) : List ι → σ → Except ε (σ × Bool)
  | [], s => .ok (s, true)
  | i :: is, s => do
      let (s, go) ← call i s
      if go then playAll call is s else return (s, false)

/-- A player of records. `left` is the number of calls it has left before it stops by
itself, if there is a limit. -/
structure Plays (call : ι → σ → Except ε (σ × Bool)) (sent : σ → List γ) (left : σ → Option Nat)
    (Ahead : List α → σ → Prop) (parts : α → γ) (Good : α → Prop) (GoodEnd : Prop) : Prop where
  grows : ∀ i s s' go, call i s = .ok (s', go) → ∃ more, sent s' = sent s ++ more
  good : ∀ i s r rs, Ahead (r :: rs) s → Good r → ∃ s',
    call i s = .ok (s', decide (left s' ≠ some 0)) ∧ sent s' = sent s ++ [parts r] ∧
      Ahead rs s' ∧ left s' = (left s).map (· - 1)
  bad : ∀ i s r rs, Ahead (r :: rs) s → ¬ Good r → ∀ s' go, call i s = .ok (s', go) →
    go = false ∧ sent s' = sent s
  goodEnd : ∀ i s, Ahead [] s → GoodEnd → ∃ s', call i s = .ok (s', false) ∧ sent s' = sent s
  badEnd : ∀ i s, Ahead [] s → ¬ GoodEnd → ∀ s' go, call i s = .ok (s', go) →
    sent s' ≠ sent s

namespace Plays

variable {call : ι → σ → Except ε (σ × Bool)} {sent : σ → List γ} {left : σ → Option Nat}
  {Ahead : List α → σ → Prop} {parts : α → γ} {Good : α → Prop} {GoodEnd : Prop}

theorem playAll_stop {i : ι} {is : List ι} {s s' : σ} (h : call i s = .ok (s', false)) :
    playAll call (i :: is) s = .ok (s', false) := by
  rw [playAll, h]
  rfl

theorem playAll_go {i : ι} {is : List ι} {s s' : σ} (h : call i s = .ok (s', true)) :
    playAll call (i :: is) s = playAll call is s' := by
  rw [playAll, h]
  rfl

/-- A run that ends well began with a call that did. -/
theorem playAll_cons {i : ι} {is : List ι} {s s' : σ} {go : Bool}
    (h : playAll call (i :: is) s = .ok (s', go)) :
    (call i s = .ok (s', false) ∧ go = false) ∨
      ∃ s₁, call i s = .ok (s₁, true) ∧ playAll call is s₁ = .ok (s', go) := by
  cases hcall : call i s with
  | error fault =>
      rw [playAll, hcall] at h
      cases h
  | ok result =>
      cases result with
      | mk s₁ more =>
          cases more with
          | false =>
              rw [playAll_stop hcall] at h
              cases h
              exact Or.inl ⟨rfl, rfl⟩
          | true =>
              rw [playAll_go hcall] at h
              exact Or.inr ⟨s₁, rfl, h⟩

theorem left_pred_iff {left : Option Nat} (h : left ≠ some 0) (n : Nat) :
    left.map (· - 1) = some n ↔ left = some (n + 1) := by
  cases left with
  | none => simp
  | some m =>
      rw [ne_eq, Option.some.injEq] at h
      simp only [Option.map_some, Option.some.injEq]
      omega

theorem room_pred_iff {left : Option Nat} (h : left ≠ some 0) (n : Nat) :
    (∀ m ∈ left.map (· - 1), n ≤ m) ↔ ∀ m ∈ left, n + 1 ≤ m := by
  cases left with
  | none => simp
  | some m =>
      rw [ne_eq, Option.some.injEq] at h
      simp only [Option.map_some, Option.mem_some_iff, forall_eq']
      omega

variable (h : Plays call sent left Ahead parts Good GoodEnd)

section Step
include h

theorem playAll_grows (is : List ι) (s s' : σ) (go : Bool)
    (hrun : playAll call is s = .ok (s', go)) : ∃ more, sent s' = sent s ++ more := by
  induction is generalizing s with
  | nil =>
      cases hrun
      exact ⟨[], (List.append_nil _).symm⟩
  | cons i is ih =>
      cases playAll_cons hrun with
      | inl hlast => exact h.grows i s s' false hlast.1
      | inr hmore =>
          obtain ⟨s₁, hcall, hrest⟩ := hmore
          obtain ⟨first, hfirst⟩ := h.grows i s s₁ true hcall
          obtain ⟨more, hmore⟩ := ih s₁ hrest
          exact ⟨first ++ more, by rw [hmore, hfirst, List.append_assoc]⟩

/-- At the end of the whole records. -/
theorem playAll_end {i : ι} (is : List ι) {s : σ} (hahead : Ahead [] s) :
    (∃ s', playAll call (i :: is) s = .ok (s', false) ∧ sent s' = sent s) ↔ GoodEnd := by
  constructor
  · intro hrun
    obtain ⟨s', hrun, hsent⟩ := hrun
    apply Classical.byContradiction
    intro hbad
    cases playAll_cons hrun with
    | inl hlast => exact h.badEnd i s hahead hbad s' false hlast.1 hsent
    | inr hmore =>
        obtain ⟨s₁, hcall, hrest⟩ := hmore
        obtain ⟨first, hfirst⟩ := h.grows i s s₁ true hcall
        obtain ⟨more, hmore⟩ := h.playAll_grows is s₁ s' false hrest
        have hnone : first ++ more = [] := by
          rw [hmore, hfirst, List.append_assoc] at hsent
          exact List.append_right_eq_self.mp hsent
        apply h.badEnd i s hahead hbad s₁ true hcall
        rw [hfirst, (List.append_eq_nil_iff.mp hnone).1, List.append_nil]
  · intro hgood
    obtain ⟨s', hcall, hsent⟩ := h.goodEnd i s hahead hgood
    exact ⟨s', playAll_stop hcall, hsent⟩

end Step

/-- A good record that is played with the last call of the limit. -/
theorem playAll_last {i : ι} (is : List ι) {s s₁ : σ} {r : α} (rs : List α)
    (hcall : call i s = .ok (s₁, false)) (hsent : sent s₁ = sent s ++ [parts r]) :
    (∃ s', playAll call (i :: is) s = .ok (s', false) ∧
      sent s' = sent s ++ (r :: rs).map parts) ↔ rs = [] := by
  rw [playAll_stop hcall]
  constructor
  · intro hrun
    obtain ⟨s', hrun, hs'⟩ := hrun
    cases hrun
    rw [hsent, List.map_cons] at hs'
    have hsame := List.append_cancel_left hs'
    exact List.map_eq_nil_iff.mp (List.cons.inj hsame).2.symm
  · intro hnil
    exact ⟨s₁, rfl, by rw [hsent, hnil]; rfl⟩

include h

/-- A record that defeats the player ends the run without it. -/
theorem playAll_bad {i : ι} (is : List ι) {s s' : σ} {r : α} {rs : List α}
    (hahead : Ahead (r :: rs) s) (hbad : ¬ Good r)
    (hrun : playAll call (i :: is) s = .ok (s', false)) : sent s' = sent s := by
  cases playAll_cons hrun with
  | inl hlast => exact (h.bad i s r rs hahead hbad s' false hlast.1).2
  | inr hmore =>
      obtain ⟨s₁, hcall, -⟩ := hmore
      cases (h.bad i s r rs hahead hbad s₁ true hcall).1

theorem playAll_iff {rs : List α} {is : List ι} (hcalls : rs.length < is.length) {s : σ}
    (hahead : Ahead rs s) (hleft : left s ≠ some 0) :
    (∃ s', playAll call is s = .ok (s', false) ∧ sent s' = sent s ++ rs.map parts) ↔
      (∀ r ∈ rs, Good r) ∧ (∀ n ∈ left s, rs.length ≤ n) ∧
        (GoodEnd ∨ left s = some rs.length) := by
  induction rs generalizing is s with
  | nil =>
      obtain ⟨i, is, rfl⟩ := List.exists_cons_of_ne_nil (List.ne_nil_of_length_pos hcalls)
      rw [List.map_nil, List.append_nil, h.playAll_end is hahead]
      simp [hleft]
  | cons r rs ih =>
      obtain ⟨i, is, rfl⟩ := List.exists_cons_of_ne_nil
        (List.ne_nil_of_length_pos (Nat.zero_lt_of_lt hcalls))
      by_cases hgood : Good r
      · obtain ⟨s₁, hcall, hsent, hrest, hcount⟩ := h.good i s r rs hahead hgood
        by_cases hlast : left s₁ = some 0
        · rw [decide_eq_false (not_not_intro hlast)] at hcall
          have hone := (left_pred_iff hleft 0).mp (hcount ▸ hlast)
          rw [playAll_last is rs hcall hsent, hone]
          cases rs with
          | nil => simp [hgood]
          | cons => simp
        · rw [decide_eq_true hlast] at hcall
          have hcalls' : rs.length < is.length := Nat.lt_of_succ_lt_succ hcalls
          have hlist : sent s ++ (r :: rs).map parts = sent s₁ ++ rs.map parts := by
            rw [hsent, List.append_assoc]
            rfl
          rw [playAll_go hcall, hlist, ih hcalls' hrest hlast, hcount, room_pred_iff hleft,
            left_pred_iff hleft, List.forall_mem_cons, List.length_cons]
          simp only [hgood, true_and]
      · constructor
        · intro hrun
          obtain ⟨s', hrun, hsent⟩ := hrun
          rw [h.playAll_bad is hahead hgood hrun] at hsent
          cases List.append_right_eq_self.mp hsent.symm
        · intro hall
          exact absurd (hall.1 r List.mem_cons_self) hgood

end Plays
end Play
end Userworks
