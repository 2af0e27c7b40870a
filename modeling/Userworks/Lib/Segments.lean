import Mathlib.Data.List.DropRight

/-!
The segments of a list: its pieces between separators, trimmed on both sides,
without those that hold nothing but blanks.
-/
namespace Userworks

section Segments

variable {α : Type} (blank : α → Bool)

/-- A list without the blanks at its two ends. -/
def trim (xs : List α) : List α := (xs.rdropWhile blank).dropWhile blank

/-- Neither end of a list is a blank. -/
def Trimmed (xs : List α) : Prop :=
  (∀ x ∈ xs.head?, blank x = false) ∧ ∀ x ∈ xs.getLast?, blank x = false

instance (xs : List α) : Decidable (Trimmed blank xs) := inferInstanceAs (Decidable (_ ∧ _))

/-- A trimmed piece, unless it is empty. -/
def segment (xs : List α) : List (List α) :=
  if (trim blank xs).isEmpty then [] else [trim blank xs]

def segments [BEq α] (sep : α) (xs : List α) : List (List α) :=
  (xs.splitOn sep).flatMap (segment blank)

variable {blank}

theorem trim_of_forall_blank {xs : List α} (h : ∀ x ∈ xs, blank x = true) : trim blank xs = [] := by
  rw [trim, List.rdropWhile_eq_nil_iff.mpr h, List.dropWhile_nil]

/-- Trimming removes exactly the padding of a trimmed list. -/
theorem trim_pad {before after xs : List α} (hbefore : ∀ x ∈ before, blank x = true)
    (hafter : ∀ x ∈ after, blank x = true) (h : Trimmed blank xs) :
    trim blank (before ++ (xs ++ after)) = xs := by
  cases xs with
  | nil =>
      apply trim_of_forall_blank
      intro x hx
      exact (List.mem_append.mp hx).elim (hbefore x) (hafter x)
  | cons x xs =>
      have hright : (before ++ (x :: xs ++ after)).rdropWhile blank = before ++ x :: xs := by
        rw [← List.append_assoc, List.rdropWhile, List.reverse_append,
          List.dropWhile_append_of_pos fun y hy => hafter y (List.mem_reverse.mp hy)]
        apply List.rdropWhile_eq_self_iff.mpr
        intro hne
        have hlast := h.2 ((x :: xs).getLast (by simp)) (List.getLast?_eq_some_getLast _)
        rw [List.getLast_append_of_ne_nil _ (by simp), hlast]
        decide
      rw [trim, hright, List.dropWhile_append_of_pos hbefore]
      exact List.dropWhile_cons_of_neg (by simp [h.1 x rfl])

theorem trim_of_trimmed {xs : List α} (h : Trimmed blank xs) : trim blank xs = xs := by
  have hpad := @trim_pad α blank [] [] xs (by simp) (by simp) h
  rwa [List.nil_append, List.append_nil] at hpad

theorem trimmed_trim (xs : List α) : Trimmed blank (trim blank xs) := by
  constructor
  · intro x hx
    exact Bool.eq_false_iff.mpr fun hblank => by
      have hhead := List.head?_dropWhile_not blank (xs.rdropWhile blank)
      rw [← trim, Option.mem_def.mp hx] at hhead
      simp [hblank] at hhead
  · intro x hx
    have hne : trim blank xs ≠ [] := by
      intro hnil
      simp [hnil] at hx
    have hsuffix : (trim blank xs).getLast? = (xs.rdropWhile blank).getLast? := by
      rw [← List.takeWhile_append_dropWhile (p := blank) (l := xs.rdropWhile blank), ← trim]
      rw [List.getLast?_append_of_ne_nil _ hne]
    have hne' : xs.rdropWhile blank ≠ [] := by
      intro hnil
      exact hne (by rw [trim, hnil, List.dropWhile_nil])
    rw [hsuffix, List.getLast?_eq_some_getLast hne', Option.mem_some_iff] at hx
    have hlast := List.rdropWhile_last_not blank xs hne'
    rw [hx] at hlast
    exact Bool.eq_false_iff.mpr hlast

theorem segment_pad {before after xs : List α} (hbefore : ∀ x ∈ before, blank x = true)
    (hafter : ∀ x ∈ after, blank x = true) (h : Trimmed blank xs) (hne : xs ≠ []) :
    segment blank (before ++ (xs ++ after)) = [xs] := by
  rw [segment, trim_pad hbefore hafter h, if_neg (by simp [hne])]

theorem segment_of_forall_blank {xs : List α} (h : ∀ x ∈ xs, blank x = true) :
    segment blank xs = [] := by
  rw [segment, trim_of_forall_blank h, List.isEmpty_nil, if_pos rfl]

theorem mem_segment {xs s : List α} (h : s ∈ segment blank xs) : s ≠ [] ∧ Trimmed blank s := by
  rw [segment] at h
  split at h
  · cases h
  · rename_i hne
    rw [List.mem_singleton.mp h]
    exact ⟨fun hnil => hne (by rw [hnil, List.isEmpty_nil]), trimmed_trim xs⟩

section Separator

variable [BEq α] [LawfulBEq α] {sep : α}

theorem segments_append_sep (xs ys : List α) :
    segments blank sep (xs ++ sep :: ys) = segments blank sep xs ++ segments blank sep ys := by
  rw [segments, List.splitOn_append_cons_self, List.flatMap_append]
  rfl

theorem segments_of_not_mem {xs : List α} (h : sep ∉ xs) :
    segments blank sep xs = segment blank xs := by
  rw [segments, List.splitOn_eq_singleton h, List.flatMap_singleton]

omit [LawfulBEq α] in
theorem mem_segments {xs s : List α} (h : s ∈ segments blank sep xs) :
    s ≠ [] ∧ Trimmed blank s := by
  obtain ⟨piece, _, hs⟩ := List.mem_flatMap.mp h
  exact mem_segment hs

end Separator
end Segments
end Userworks
