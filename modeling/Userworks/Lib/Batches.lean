import Mathlib.Data.List.Basic

/-!
A stream of items cut into batches. The batch at hand is closed as soon as it is
full. No item is lost by the cutting, and a batch that is closed became full
with its last item.
-/
namespace Userworks

variable {α : Type}

/-- Batches of images are the images of batches. -/
theorem exists_batches_of_map {β : Type} {f : α → β} {batches : List (List β)} {xs : List α}
    (h : batches.flatten = xs.map f) :
    ∃ groups : List (List α), groups.flatten = xs ∧ batches = groups.map (List.map f) := by
  induction batches generalizing xs with
  | nil => exact ⟨[], (List.map_eq_nil_iff.mp h.symm).symm, rfl⟩
  | cons batch batches ih =>
      rw [List.flatten_cons, eq_comm, List.map_eq_append_iff] at h
      obtain ⟨front, rest, rfl, hfront, hrest⟩ := h
      obtain ⟨groups, hgroups, hbatches⟩ := ih hrest.symm
      refine ⟨front :: groups, ?_, ?_⟩
      · rw [List.flatten_cons, hgroups]
      · rw [List.map_cons, hfront, hbatches]

/-- The batches that are closed, and the one at hand. -/
structure Batches (α : Type) where
  closed : List (List α) := []
  current : List α := []

/-- The batch became full with its last item. -/
def FullAtLast (full : List α → Bool) (batch : List α) : Prop :=
  full batch = true ∧ ∀ init rest, batch = init ++ rest → init ≠ [] → rest ≠ [] → full init = false

namespace Batches

def all (s : Batches α) : List (List α) := s.closed ++ [s.current]

def items (s : Batches α) : List α := s.all.flatten

def push (full : List α → Bool) (s : Batches α) (x : α) : Batches α :=
  if full (s.current ++ [x]) then ⟨s.closed ++ [s.current ++ [x]], []⟩
  else ⟨s.closed, s.current ++ [x]⟩

theorem items_push (full : List α → Bool) (s : Batches α) (x : α) :
    (s.push full x).items = s.items ++ [x] := by
  rw [push]
  split <;> simp [items, all]

theorem items_foldl (full : List α → Bool) (s : Batches α) (xs : List α) :
    (xs.foldl (push full) s).items = s.items ++ xs := by
  induction xs generalizing s with
  | nil => exact (List.append_nil _).symm
  | cons x xs ih => rw [List.foldl_cons, ih, items_push, List.append_assoc, List.singleton_append]

/-- No batch was full before its last item. -/
structure Sharp (full : List α → Bool) (s : Batches α) : Prop where
  closed : ∀ batch ∈ s.closed, FullAtLast full batch
  current : ∀ init rest, s.current = init ++ rest → init ≠ [] → full init = false

theorem sharp_empty (full : List α → Bool) : Sharp full {} := by
  refine ⟨fun batch h => absurd h List.not_mem_nil, ?_⟩
  intro init rest h hne
  exact absurd (List.append_eq_nil_iff.mp h.symm).1 hne

theorem Sharp.push {full : List α → Bool} {s : Batches α} (h : Sharp full s) (x : α) :
    Sharp full (s.push full x) := by
  have hbefore : ∀ init rest, s.current ++ [x] = init ++ rest → init ≠ [] → rest ≠ [] →
      full init = false := by
    intro init rest heq hinit hrest
    obtain ⟨front, last, rfl⟩ := List.eq_nil_or_concat rest |>.resolve_left hrest
    rw [List.concat_eq_append, ← List.append_assoc] at heq
    exact h.current init front (List.append_inj_left' heq rfl) hinit
  rw [Batches.push]
  split
  · next hfull =>
      refine ⟨?_, ?_⟩
      · intro batch hbatch
        cases List.mem_append.mp hbatch with
        | inl hold => exact h.closed batch hold
        | inr hnew =>
            rw [List.mem_singleton.mp hnew]
            exact ⟨hfull, hbefore⟩
      · intro init rest heq hne
        exact absurd (List.append_eq_nil_iff.mp heq.symm).1 hne
  · next hfull =>
      refine ⟨h.closed, ?_⟩
      intro init rest heq hne
      by_cases hrest : rest = []
      · rw [hrest, List.append_nil] at heq
        rw [← heq]
        exact Bool.eq_false_iff.mpr hfull
      · exact hbefore init rest heq hne hrest

theorem Sharp.foldl {full : List α → Bool} {s : Batches α} (h : Sharp full s) (xs : List α) :
    Sharp full (xs.foldl (Batches.push full) s) := by
  induction xs generalizing s with
  | nil => exact h
  | cons x xs ih => exact ih (h.push x)

end Batches

end Userworks
