import Mathlib.Data.List.Count
import Mathlib.Data.List.Nodup
import Mathlib.Data.List.Perm.Subperm
import Mathlib.Data.List.Range

/-!
Slices across several streams. Each of `n` sources gives its items different numbers, and
the items of all sources come in any order. The items of one number are a slice: it has
at most one item of each source, so it is complete when it has `n` items.
-/
namespace Userworks

variable {α κ : Type} [DecidableEq κ] {source : α → Nat} {number : α → κ} {n : Nat}
  {items : List α}

def ofSource (source : α → Nat) (i : Nat) (items : List α) : List α :=
  items.filter fun a => source a = i

def slice (number : α → κ) (k : κ) (items : List α) : List α :=
  items.filter fun a => number a = k

/-- No source uses a number twice. -/
structure Sliced (source : α → Nat) (number : α → κ) (n : Nat) (items : List α) : Prop where
  sources : ∀ a ∈ items, source a < n
  numbers : ∀ i < n, ((ofSource source i items).map number).Nodup

/-- Every source has an item of the number. -/
def SliceComplete (source : α → Nat) (number : α → κ) (n : Nat) (k : κ) (items : List α) : Prop :=
  ∀ i < n, k ∈ (ofSource source i items).map number

theorem count_sources_slice (i : Nat) (k : κ) (items : List α) :
    ((slice number k items).map source).count i =
      ((ofSource source i items).map number).count k := by
  rw [List.count, List.count, List.countP_map, List.countP_map, slice, ofSource,
    List.countP_filter, List.countP_filter]
  exact List.countP_congr fun a _ => by simp [and_comm]

theorem nodup_sources_slice (h : Sliced source number n items) (k : κ) :
    ((slice number k items).map source).Nodup := by
  rw [List.nodup_iff_count_le_one]
  intro i
  by_cases hi : i < n
  · rw [count_sources_slice]
    exact List.nodup_iff_count_le_one.mp (h.numbers i hi) k
  · rw [List.count_eq_zero_of_not_mem]
    · exact Nat.zero_le 1
    · intro hmem
      obtain ⟨a, ha, rfl⟩ := List.mem_map.mp hmem
      exact hi (h.sources a (List.mem_of_mem_filter ha))

theorem mem_sources_slice {i : Nat} {k : κ} :
    i ∈ (slice number k items).map source ↔ k ∈ (ofSource source i items).map number := by
  rw [← List.count_pos_iff, count_sources_slice, List.count_pos_iff]

theorem sources_slice_subset (h : Sliced source number n items) (k : κ) :
    (slice number k items).map source ⊆ List.range n := by
  intro i hi
  obtain ⟨a, ha, rfl⟩ := List.mem_map.mp hi
  exact List.mem_range.mpr (h.sources a (List.mem_of_mem_filter ha))

theorem length_slice_le (h : Sliced source number n items) (k : κ) :
    (slice number k items).length ≤ n := by
  have hsub := ((nodup_sources_slice h k).subperm (sources_slice_subset h k)).length_le
  rwa [List.length_map, List.length_range] at hsub

/-- A slice is complete when it has as many items as there are sources. -/
theorem sliceComplete_iff (h : Sliced source number n items) {k : κ} :
    SliceComplete source number n k items ↔ (slice number k items).length = n := by
  have hsub := (nodup_sources_slice h k).subperm (sources_slice_subset h k)
  constructor
  · intro hk
    refine Nat.le_antisymm (length_slice_le h k) ?_
    have hrange := (List.nodup_range.subperm fun i hi =>
      mem_sources_slice.mpr (hk i (List.mem_range.mp hi))).length_le
    rwa [List.length_map, List.length_range] at hrange
  · intro hlength i hi
    have hperm := hsub.perm_of_length_le (by rw [List.length_map, List.length_range, hlength])
    exact mem_sources_slice.mp (hperm.mem_iff.mpr (List.mem_range.mpr hi))

/-- A complete slice has one item of each source. -/
theorem sources_slice_perm (h : Sliced source number n items) {k : κ}
    (hk : SliceComplete source number n k items) :
    ((slice number k items).map source).Perm (List.range n) := by
  have hsub := (nodup_sources_slice h k).subperm (sources_slice_subset h k)
  refine hsub.perm_of_length_le ?_
  rw [List.length_map, List.length_range, (sliceComplete_iff h).mp hk]

end Userworks
