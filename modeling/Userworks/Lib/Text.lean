import Mathlib.Algebra.Group.Nat.Defs
import Mathlib.Data.List.Basic

/-!
Text as the C++ standard library sees it: a `std::string` is a list of
characters, character classes are those of the "C" locale, and `atoi` follows
the usual 64-bit `strtol` with truncation to `int`. A call that does not return
normally ends in a `Fault`.
-/
namespace Userworks

abbrev Text := List Char

/-- How a C++ call ends when it does not return: a thrown `std::runtime_error`
with its text, a thrown `std::length_error`, a failed `assert`, or an operation
the language leaves undefined.
`fuel` is not a behaviour of the code: it marks a recursion bound that was chosen
too small. -/
inductive Fault where
  | runtimeError (what : Text)
  | lengthError
  | assertion
  | undefined
  | fuel
  deriving DecidableEq, Repr

def isspace (c : Char) : Bool :=
  c = ' ' || c = '\t' || c = '\n' || c = '\x0b' || c = '\x0c' || c = '\r'

def isdigit (c : Char) : Bool := c.isDigit

/-- The number a word of decimal digits denotes. -/
def decimal (word : Text) : Nat :=
  word.foldl (fun n c => 10 * n + (c.toNat - 48)) 0

/-- `atoi` on a word of digits: `strtol` saturates at `LONG_MAX` and the result
is cut to an `int`. -/
def atoi (word : Text) : Int :=
  (BitVec.ofNat 32 (min (decimal word) (2 ^ 63 - 1))).toInt

theorem atoi_eq_decimal (word : Text) (h : decimal word < 2 ^ 31) :
    atoi word = decimal word := by
  have hmin : min (decimal word) (2 ^ 63 - 1) = decimal word := by omega
  rw [atoi, hmin, BitVec.toInt_eq_toNat_of_lt] <;> simp only [BitVec.toNat_ofNat] <;> omega

/-- A decimal numeral: one digit or more. -/
def IsNumeral (word : Text) : Prop := word ≠ [] ∧ word.all isdigit = true

theorem not_isspace_of_isdigit {c : Char} (h : isdigit c = true) : isspace c = false := by
  have hc : 48 ≤ c.val ∧ c.val ≤ 57 := by
    simpa [isdigit, Char.isDigit] using h
  simp only [isspace, Bool.or_eq_false_iff, decide_eq_false_iff_not]
  refine ⟨⟨⟨⟨⟨?_, ?_⟩, ?_⟩, ?_⟩, ?_⟩, ?_⟩ <;>
    (rintro rfl; revert hc; decide)

/-- Words joined by a separator that none of them contains split back into
themselves. -/
theorem splitOn_terminated (sep : Char) (words : List Text)
    (h : ∀ word ∈ words, sep ∉ word) :
    (words.flatMap (· ++ [sep])).splitOn sep = words ++ [[]] := by
  induction words with
  | nil => rfl
  | cons word words ih =>
      have hw : sep ∉ word := h word (by simp)
      rw [List.flatMap_cons, List.append_assoc, List.singleton_append,
        List.splitOn_append_cons_self_of_not_mem hw]
      rw [ih fun w hm => h w (by simp [hm])]
      rfl

end Userworks
