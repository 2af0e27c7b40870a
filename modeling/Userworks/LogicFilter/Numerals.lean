import Userworks.LogicFilter.SignalParser
import Mathlib.Data.List.Induction
import Mathlib.Data.Nat.Digits.Defs

/-!
The numerals that `std::stoul` with base 0 reads to their end: hexadecimal with
the prefix `0x`, or decimal without leading zeros.
-/
namespace Userworks

/-- Digits of a base that denote a number, with any leading zeros. -/
def Digits (base : Nat) (word : Text) (n : Nat) : Prop :=
  ∃ ds : List Nat, word ≠ [] ∧ word.map (digitValue base) = ds.map some ∧
    Nat.ofDigits base ds.reverse = n

inductive Numeral : Text → Nat → Prop where
  | hex {digits : Text} {n : Nat} : Digits 16 digits n → Numeral ('0' :: 'x' :: digits) n
  | decimal {digits : Text} {n : Nat} :
      Digits 10 digits n → digits.head? ≠ some '0' → Numeral digits n
  | zero : Numeral ['0'] 0

theorem foldl_eq_ofDigits (base : Nat) (ds : List Nat) :
    ds.foldl (fun n d => base * n + d) 0 = Nat.ofDigits base ds.reverse := by
  induction ds using List.reverseRecOn with
  | nil => rfl
  | append_singleton ds d ih =>
      rw [List.foldl_append, List.foldl_cons, List.foldl_nil, ih, List.reverse_append,
        List.reverse_singleton, List.singleton_append, Nat.ofDigits_cons, Nat.add_comm]

theorem leadingDigits_eq {base : Nat} {word : Text} {ds : List Nat}
    (h : word.map (digitValue base) = ds.map some) : leadingDigits base word = ds := by
  induction word generalizing ds with
  | nil => exact (List.map_eq_nil_iff.mp h.symm).symm
  | cons c word ih =>
      cases ds with
      | nil => cases h
      | cons d ds =>
          rw [List.map_cons, List.map_cons, List.cons.injEq] at h
          rw [leadingDigits, h.1]
          exact congrArg (d :: ·) (ih h.2)

theorem Digits.leadingDigits_ne_nil {base : Nat} {word : Text} {n : Nat} (h : Digits base word n) :
    leadingDigits base word ≠ [] := by
  obtain ⟨ds, hne, hds, -⟩ := h
  rw [leadingDigits_eq hds]
  intro hnil
  rw [hnil, List.map_nil, List.map_eq_nil_iff] at hds
  exact hne hds

theorem Digits.value {base : Nat} {word : Text} {n : Nat} (h : Digits base word n) :
    (leadingDigits base word).foldl (fun n d => base * n + d) 0 = n := by
  obtain ⟨ds, -, hds, hvalue⟩ := h
  rw [leadingDigits_eq hds, foldl_eq_ofDigits, hvalue]

/-- Every character of the digits is one. -/
theorem Digits.exists_value {base : Nat} {word : Text} {n : Nat} (h : Digits base word n) {c : Char}
    (hc : c ∈ word) : ∃ d, digitValue base c = some d := by
  obtain ⟨ds, -, hds, -⟩ := h
  have hvalue : digitValue base c ∈ ds.map some := hds ▸ List.mem_map_of_mem hc
  obtain ⟨d, -, hd⟩ := List.mem_map.mp hvalue
  exact ⟨d, hd.symm⟩

theorem isdigit_of_decimal {c : Char} {d : Nat} (h : digitValue 10 c = some d) :
    isdigit c = true := by
  apply Classical.byContradiction
  intro hc
  have hnone : digitValue 10 c = none := by
    simp only [digitValue, hc, if_false]
    split
    · rw [if_neg (by omega)]
    · split
      · rw [if_neg (by omega)]
      · rw [if_neg (by omega)]
  rw [hnone] at h
  cases h

theorem Numeral.numberBase {word : Text} {n : Nat} (h : Numeral word n) :
    ∃ base digits, numberBase word = (base, digits) ∧ Digits base digits n := by
  cases h with
  | @hex digits _ hdigits =>
      refine ⟨16, digits, ?_, hdigits⟩
      rw [Userworks.numberBase, if_pos ⟨Or.inl rfl, hdigits.leadingDigits_ne_nil⟩]
  | decimal hdigits hhead =>
      refine ⟨10, word, ?_, hdigits⟩
      cases word with
      | nil => rfl
      | cons c rest =>
          have hc : c ≠ '0' := fun hzero => hhead (by rw [hzero, List.head?_cons])
          rw [Userworks.numberBase.eq_def]
          split
          · rename_i heq
            exact absurd (List.cons.inj heq).1 hc
          · rename_i heq
            exact absurd (List.cons.inj heq).1 hc
          · rfl
  | zero => exact ⟨8, ['0'], rfl, [0], by decide, by decide, rfl⟩

/-- A numeral starts with a decimal digit. -/
theorem Numeral.head {word : Text} {n : Nat} (h : Numeral word n) :
    ∃ c rest, word = c :: rest ∧ isdigit c = true := by
  cases h with
  | hex => exact ⟨_, _, rfl, by decide⟩
  | decimal hdigits _ =>
      cases word with
      | nil =>
          obtain ⟨_, hne, _⟩ := hdigits
          exact absurd rfl hne
      | cons c rest =>
          obtain ⟨d, hd⟩ := hdigits.exists_value (List.mem_cons_self ..)
          exact ⟨c, rest, rfl, isdigit_of_decimal hd⟩
  | zero => exact ⟨_, _, rfl, by decide⟩

theorem numberSign_of_isdigit {c : Char} {rest : Text} (h : isdigit c = true) :
    numberSign (c :: rest) = (false, c :: rest) := by
  rw [numberSign.eq_def]
  split
  · rename_i heq
    rw [(List.cons.inj heq).1] at h
    exact absurd h (by decide)
  · rename_i heq
    rw [(List.cons.inj heq).1] at h
    exact absurd h (by decide)
  · rfl

/-- The sign and the value of a numeral decide the number. -/
theorem stoul_signed {word rest numeral : Text} {n : Nat} {negative : Bool}
    (hspace : word.dropWhile isspace = rest) (hsign : numberSign rest = (negative, numeral))
    (h : Numeral numeral n) (hn : n < 2 ^ 64) :
    stoul word = some (if negative then (2 ^ 64 - n) % 2 ^ 64 else n) := by
  obtain ⟨base, digits, hbase, hdigits⟩ := h.numberBase
  simp only [stoul, hspace, hsign, hbase, hdigits.value]
  rw [if_neg (not_or.mpr ⟨hdigits.leadingDigits_ne_nil, Nat.not_le.mpr hn⟩)]

theorem stoul_numeral {word : Text} {n : Nat} (h : Numeral word n) (hn : n < 2 ^ 64) :
    stoul word = some n := by
  obtain ⟨c, rest, rfl, hc⟩ := h.head
  have hspace := List.dropWhile_cons_of_neg (p := isspace) (l := rest)
    (Bool.eq_false_iff.mp (not_isspace_of_isdigit hc))
  exact stoul_signed hspace (numberSign_of_isdigit hc) h hn

theorem stoul_neg_numeral {word : Text} {n : Nat} (h : Numeral word n) (hn : n < 2 ^ 64) :
    stoul ('-' :: word) = some ((2 ^ 64 - n) % 2 ^ 64) :=
  stoul_signed (List.dropWhile_cons_of_neg (by decide)) rfl h hn

end Userworks
