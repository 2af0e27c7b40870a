import Userworks.Lib.Text

/-!
A vector of flags, one for each message, and the writes that clear some of them.
A write outside of the vector is undefined, so a sequence of writes is defined
exactly when all its positions are inside, and it leaves the flags at the other
positions as they are.
-/
namespace Userworks

/-- `flags[k] = false`. -/
def clearFlag (flags : List Bool) (k : Nat) : Except Fault (List Bool) :=
  if k < flags.length then .ok (flags.set k false) else .error .undefined

def clearFlags (flags : List Bool) (ks : List Nat) : Except Fault (List Bool) :=
  ks.foldlM clearFlag flags

/-- The flags without those at the given positions. -/
def clearedFlags (flags : List Bool) (ks : List Nat) : List Bool :=
  flags.mapIdx fun j flag => flag && decide (j ∉ ks)

@[simp] theorem length_clearedFlags (flags : List Bool) (ks : List Nat) :
    (clearedFlags flags ks).length = flags.length :=
  List.length_mapIdx

@[simp] theorem clearedFlags_nil (flags : List Bool) : clearedFlags flags [] = flags := by
  apply List.ext_getElem?
  intro j
  simp [clearedFlags]

theorem clearedFlags_set {flags : List Bool} {k : Nat} (ks : List Nat) :
    clearedFlags (flags.set k false) ks = clearedFlags flags (k :: ks) := by
  apply List.ext_getElem?
  intro j
  rw [clearedFlags, clearedFlags, List.getElem?_mapIdx, List.getElem?_mapIdx, List.getElem?_set]
  by_cases hj : k = j
  · subst hj
    by_cases hk : k < flags.length
    · simp [hk]
    · simp [hk]
  · simp [hj, Ne.symm hj]

theorem clearFlags_eq (flags : List Bool) (ks : List Nat) :
    clearFlags flags ks =
      if ∀ k ∈ ks, k < flags.length then .ok (clearedFlags flags ks) else .error .undefined := by
  induction ks generalizing flags with
  | nil => simp [clearFlags, pure, Except.pure]
  | cons k ks ih =>
      rw [clearFlags, List.foldlM_cons, clearFlag]
      by_cases hk : k < flags.length
      · have hrest := ih (flags.set k false)
        rw [List.length_set, clearedFlags_set] at hrest
        simpa [hk, Bind.bind, Except.bind, clearFlags] using hrest
      · simp [hk, Bind.bind, Except.bind]

theorem clearFlags_append (flags : List Bool) (ks ls : List Nat) :
    clearFlags flags (ks ++ ls) = (clearFlags flags ks).bind fun flags => clearFlags flags ls :=
  List.foldlM_append

/-- Of a vector of set flags exactly the cleared ones are not set. -/
theorem getElem?_clearedFlags_replicate (n : Nat) (ks : List Nat) (j : Nat) :
    (clearedFlags (List.replicate n true) ks)[j]? = some false ↔ j < n ∧ j ∈ ks := by
  rw [clearedFlags, List.getElem?_mapIdx, List.getElem?_replicate]
  by_cases hj : j < n
  · simp [hj]
  · simp [hj]

end Userworks
