import Mathlib.Control.Basic

/-!
Computations that can fail. A computation in steps, or for each element of a list, that
succeeds did so in each of them. A loop over a table with distinct keys does to one key
what the round of that key does, if the other rounds leave it alone.
-/
namespace Userworks

variable {ε α β : Type}

theorem ok_of_bind {x : Except ε α} {f : α → Except ε β} {b : β} (h : x >>= f = .ok b) :
    ∃ a, x = .ok a ∧ f a = .ok b := by
  cases x with
  | error fault => cases h
  | ok a => exact ⟨a, rfl, h⟩

theorem exists_of_mem_mapM {f : α → Except ε β} {as : List α} {bs : List β}
    (h : as.mapM f = .ok bs) {b : β} (hb : b ∈ bs) : ∃ a ∈ as, f a = .ok b := by
  induction as generalizing bs with
  | nil =>
      cases h
      cases hb
  | cons a as ih =>
      rw [List.mapM_cons] at h
      obtain ⟨first, hfirst, h⟩ := ok_of_bind h
      obtain ⟨rest, hrest, h⟩ := ok_of_bind h
      cases h
      cases List.mem_cons.mp hb with
      | inl heq => exact ⟨a, List.mem_cons_self, heq ▸ hfirst⟩
      | inr hmem =>
          obtain ⟨a', ha', hmade⟩ := ih hrest hmem
          exact ⟨a', List.mem_cons_of_mem _ ha', hmade⟩

/-- `view` shows what belongs to a key. -/
theorem foldlM_view {σ κ ν τ : Type} {step : σ → κ × ν → Except ε σ} {view : σ → τ} {key : κ}
    (hother : ∀ s s' k v, k ≠ key → step s (k, v) = .ok s' → view s' = view s)
    {table : List (κ × ν)} (hkeys : (table.map Prod.fst).Nodup) {s s' : σ}
    (h : table.foldlM step s = .ok s') :
    (key ∉ table.map Prod.fst ∧ view s' = view s) ∨
      ∃ v s₁ s₂, (key, v) ∈ table ∧ step s₁ (key, v) = .ok s₂ ∧ view s₁ = view s ∧
        view s' = view s₂ := by
  induction table generalizing s with
  | nil =>
      cases h
      exact Or.inl ⟨List.not_mem_nil, rfl⟩
  | cons entry table ih =>
      obtain ⟨k, v⟩ := entry
      rw [List.map_cons, List.nodup_cons] at hkeys
      rw [List.foldlM_cons] at h
      obtain ⟨s₁, hround, hrest⟩ := ok_of_bind h
      by_cases hkey : k = key
      · subst hkey
        cases ih hkeys.2 hrest with
        | inl hnone => exact Or.inr ⟨v, s, s₁, List.mem_cons_self, hround, rfl, hnone.2⟩
        | inr hround =>
            obtain ⟨v, _, _, hmem, _⟩ := hround
            exact absurd (List.mem_map_of_mem hmem) hkeys.1
      · have hview := hother s s₁ k v hkey hround
        cases ih hkeys.2 hrest with
        | inl hnone =>
            refine Or.inl ⟨?_, hnone.2.trans hview⟩
            rw [List.map_cons, List.mem_cons, not_or]
            exact ⟨Ne.symm hkey, hnone.1⟩
        | inr hround =>
            obtain ⟨v, s₂, s₃, hmem, hstep, hbefore, hafter⟩ := hround
            exact Or.inr ⟨v, s₂, s₃, List.mem_cons_of_mem _ hmem, hstep, hbefore.trans hview,
              hafter⟩

end Userworks
