import Userworks.Utility.FileUtil

/-!
The names of the branches. A formatted number can be read back from its text, so
the branches of a run have different names.
-/
namespace Userworks.E16

/-! ### Numbers in names -/

theorem decimal_append (word : Text) (c : Char) :
    decimal (word ++ [c]) = 10 * decimal word + (c.toNat - 48) := by
  rw [decimal, List.foldl_append]
  rfl

theorem decimal_toDigits (n : Nat) : decimal (Nat.toDigits 10 n) = n := by
  have hdigit : ∀ d < 10, (Nat.digitChar d).toNat - 48 = d := by decide
  induction n using Nat.strongRecOn with
  | ind n ih =>
      by_cases hn : n < 10
      · rw [Nat.toDigits_of_lt_base hn]
        exact (Nat.zero_add _).trans (hdigit n hn)
      · rw [Nat.toDigits_of_base_le (by decide) (Nat.not_lt.mp hn), decimal_append,
          ih (n / 10) (Nat.div_lt_self (by omega) (by decide)), hdigit _ (Nat.mod_lt n (by decide))]
        exact Nat.div_add_mod n 10

theorem decimal_replicate_zero (k : Nat) (word : Text) :
    decimal (List.replicate k '0' ++ word) = decimal word := by
  induction k with
  | zero => rfl
  | succ k ih =>
      rw [List.replicate_succ, List.cons_append]
      exact ih

/-- The number is read back from the digits of its text, whatever it is filled with. -/
theorem decimal_filter_padded (width n : Nat) {fill : Char} (h : fill = '0' ∨ fill = ' ') :
    decimal ((padded width fill (Nat.toDigits 10 n)).filter isdigit) = n := by
  have hdigits : (Nat.toDigits 10 n).filter isdigit = Nat.toDigits 10 n := by
    rw [List.filter_eq_self]
    intro c hc
    exact Nat.isDigit_of_mem_toDigits (by decide) (by decide) hc
  rw [padded, List.filter_append, hdigits]
  cases h with
  | inl h =>
      have hzero : isdigit '0' = true := by decide
      rw [h, List.filter_replicate, if_pos hzero, decimal_replicate_zero, decimal_toDigits]
  | inr h =>
      have hblank : ¬ isdigit ' ' = true := by decide
      rw [h, List.filter_replicate, if_neg hblank, List.nil_append, decimal_toDigits]

theorem decimalText_natCast (n : Nat) : decimalText n = Nat.toDigits 10 n := by
  rw [decimalText, if_neg (by omega), Int.toNat_natCast]

/-- What a format does to every number once it does it to one. -/
theorem toFormattedString_uniform {form text : Text} {a : Int}
    (h : toFormattedString form a = .ok text) :
    ∃ pre width fill post, (fill = '0' ∨ fill = ' ') ∧ ∀ b : Nat,
      toFormattedString form b = .ok (pre ++ padded width fill (Nat.toDigits 10 b) ++ post) := by
  rw [toFormattedString] at h
  cases hsearch : regexSearch form with
  | none =>
      rw [hsearch] at h
      cases h
  | some found =>
      obtain ⟨pre, num, post⟩ := found
      rw [hsearch] at h
      by_cases hlarge : 2 ^ 63 ≤ decimal num
      · simp only [if_pos hlarge] at h
        cases h
      · refine ⟨pre, setw (decimal num), if num.head? = some '0' then '0' else ' ', post, ?_, ?_⟩
        · split
          · exact Or.inl rfl
          · exact Or.inr rfl
        · intro b
          rw [toFormattedString, hsearch]
          simp only [if_neg hlarge, decimalText_natCast]

theorem exists_digit {form text : Text} {n : Nat} (h : toFormattedString form n = .ok text) :
    ∃ c ∈ text, isdigit c = true := by
  obtain ⟨pre, width, fill, post, -, hall⟩ := toFormattedString_uniform h
  rw [hall n, Except.ok.injEq] at h
  obtain ⟨c, hc⟩ := List.exists_mem_of_ne_nil _ (Nat.toDigits_ne_nil (b := 10) (n := n))
  refine ⟨c, ?_, Nat.isDigit_of_mem_toDigits (by decide) (by decide) hc⟩
  rw [← h, padded]
  simp [hc]

/-! ### Names of branches -/

theorem joinPath_injective (p : Text) {r x y : Text} (hr : r ≠ [])
    (h : FileUtil.joinPath p (r ++ x) = FileUtil.joinPath p (r ++ y)) : x = y := by
  cases r with
  | nil => exact absurd rfl hr
  | cons c r =>
      simp only [FileUtil.joinPath, List.cons_append, List.head?_cons] at h
      split at h
      · exact List.append_cancel_left (List.cons_injective h)
      split at h
      · exact List.append_cancel_left (List.cons_injective (List.append_cancel_left h))
      · exact List.append_cancel_left (List.cons_injective
          (List.cons_injective (List.append_cancel_left h)))

theorem mem_joinPath {p q : Text} {c : Char} (h : c ∈ q) : c ∈ FileUtil.joinPath p q := by
  rw [FileUtil.joinPath]
  split
  · exact h
  split
  · exact List.mem_append_right p h
  · exact List.mem_append_right p (List.mem_cons_of_mem _ h)

namespace FileUtil

/-- The name that a run gives to its branch `b`. -/
def branchName (date : Text) (f : FileUtil) (b : Nat) : Except FileFault Text :=
  (generateFileName date { f with fBranchNum := b } []).map (joinPath f.fPrefix)

theorem generateFileName_run (date : Text) (f : FileUtil) (b : Nat) (hrun : 0 ≤ f.fRun) :
    generateFileName date { f with fBranchNum := b } [] =
      toFormattedString f.fRunNumberFormat f.fRun >>= fun run =>
        toFormattedString f.fBranchNumberFormat b >>= fun branch =>
          .ok (run ++ branch ++ f.fExt) := by
  have hbranch : (0 : Int) ≤ b := Int.natCast_nonneg b
  rw [generateFileName]
  simp only [ne_eq, not_true_eq_false, if_false, if_pos hrun, if_pos hbranch]
  rfl

/-- Once a branch has a name all of them have one, and their names differ. -/
theorem branchNames (date : Text) (f : FileUtil) (hrun : 0 ≤ f.fRun) {b : Nat} {name : Text}
    (h : branchName date f b = .ok name) :
    ∃ names : Nat → Text, (∀ n, branchName date f n = .ok (names n)) ∧
      Function.Injective names ∧ ∀ n, ∃ c ∈ names n, isdigit c = true := by
  obtain ⟨r, hr⟩ := Int.eq_ofNat_of_zero_le hrun
  rw [branchName, generateFileName_run date f b hrun, hr] at h
  cases hrunText : toFormattedString f.fRunNumberFormat r with
  | error fault =>
      rw [hrunText] at h
      cases h
  | ok run =>
      rw [hrunText] at h
      cases hbranchText : toFormattedString f.fBranchNumberFormat b with
      | error fault =>
          change (toFormattedString f.fBranchNumberFormat b >>= _ : Except FileFault Text).map _ = _
            at h
          rw [hbranchText] at h
          cases h
      | ok branch =>
          obtain ⟨pre, width, fill, post, hfill, hall⟩ := toFormattedString_uniform hbranchText
          obtain ⟨c, hc, hdigit⟩ := exists_digit hrunText
          refine ⟨fun n => joinPath f.fPrefix
            (run ++ ((pre ++ padded width fill (Nat.toDigits 10 n) ++ post) ++ f.fExt)), ?_, ?_, ?_⟩
          · intro n
            rw [branchName, generateFileName_run date f n hrun, hr, hrunText, hall n]
            exact congrArg (fun t => Except.ok (joinPath f.fPrefix t)) (List.append_assoc _ _ _)
          · intro n m heq
            have hext := joinPath_injective f.fPrefix (List.ne_nil_of_mem hc) heq
            have hpost := List.append_cancel_right (List.append_cancel_right hext)
            have hnumber := List.append_cancel_left hpost
            rw [← decimal_filter_padded width n hfill, hnumber, decimal_filter_padded width m hfill]
          · intro n
            exact ⟨c, mem_joinPath (List.mem_append_left _ hc), hdigit⟩

end FileUtil

end Userworks.E16
