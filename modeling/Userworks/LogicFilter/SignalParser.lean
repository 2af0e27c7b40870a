import Userworks.Lib.Text
import Userworks.Lib.LittleEndian

/-!
The parser of the trigger signals: a text of groups of numbers in parentheses.

Words that are no numbers are reported and left out. A closing parenthesis does
not end its group: the numbers stay until the next opening one.
-/
namespace Userworks

/-- The value of a digit in a base, in the alphabet of `strtoul`. -/
def digitValue (base : Nat) (c : Char) : Option Nat :=
  let value :=
    if isdigit c then c.toNat - '0'.toNat
    else if 'a' ≤ c ∧ c ≤ 'z' then c.toNat - 'a'.toNat + 10
    else if 'A' ≤ c ∧ c ≤ 'Z' then c.toNat - 'A'.toNat + 10
    else base
  if value < base then some value else none

def leadingDigits (base : Nat) : Text → List Nat
  | [] => []
  | c :: rest =>
      match digitValue base c with
      | some d => d :: leadingDigits base rest
      | none => []

/-- The base that the prefix of a number announces, and the digits behind it. The
prefix of a hexadecimal number counts only in front of a digit. -/
def numberBase : Text → Nat × Text
  | '0' :: x :: rest =>
      if (x = 'x' ∨ x = 'X') ∧ leadingDigits 16 rest ≠ [] then (16, rest)
      else (8, '0' :: x :: rest)
  | ['0'] => (8, ['0'])
  | rest => (10, rest)

def numberSign : Text → Bool × Text
  | '-' :: rest => (true, rest)
  | '+' :: rest => (false, rest)
  | rest => (false, rest)

/-- `std::stoul(word, nullptr, 0)` with a 64-bit `unsigned long`: what follows the
number is ignored, and the sign is applied modulo `2 ^ 64`. There is no result when
it throws, `std::invalid_argument` without a digit and `std::out_of_range` above
`ULONG_MAX`. -/
def stoul (word : Text) : Option Nat :=
  let (negative, rest) := numberSign (word.dropWhile isspace)
  let (base, rest) := numberBase rest
  let digits := leadingDigits base rest
  let value := digits.foldl (fun n d => base * n + d) 0
  if digits = [] ∨ 2 ^ 64 ≤ value then none
  else some (if negative then (2 ^ 64 - value) % 2 ^ 64 else value)

namespace SignalParser

/-- A word that has come to its end. -/
def closeWord (words : List Text) (word : Text) : List Text :=
  if word.isEmpty then words else words ++ [word]

def bksplitStep (s : List Text × Text) (ch : Char) : List Text × Text :=
  if ch = '(' ∨ ch = ')' then (closeWord s.1 s.2 ++ [[ch]], [])
  else if ch = ' ' then (closeWord s.1 s.2, [])
  else (s.1, s.2 ++ [ch])

def bksplit (str : Text) : List Text :=
  let s := str.foldl bksplitStep ([], [])
  closeWord s.1 s.2

/-- One word of the loop in `Parsing`, on the groups so far and the open group. -/
def parsingStep (s : List (List (BitVec 32)) × List (BitVec 32)) (v : Text) :
    List (List (BitVec 32)) × List (BitVec 32) :=
  if v = ['('] then (s.1, [])
  else if v = [')'] then (if s.2.length > 0 then s.1 ++ [s.2] else s.1, s.2)
  else
    match stoul v with
    | some ulval => (s.1, s.2 ++ [BitVec.ofNat 32 ulval])
    | none => s

def parsing (sigstr : Text) : List (List (BitVec 32)) :=
  ((bksplit sigstr).foldl parsingStep ([], [])).1

/-- The text of the test program beside the parser: the word `xxx1` is left out. -/
example : parsing "(0x1234 0 0) ( 0xc0a802a9 1 0 ) (0xa235 xxx1 1)".toList =
    [[0x1234, 0, 0], [0xc0a802a9, 1, 0], [0xa235, 1]] := by decide

end SignalParser
end Userworks
