import Userworks.Lib.Segments
import Userworks.LogicFilter.SignalParser

/-!
The parser of the trigger expressions: a text of lines that end at semicolons,
each a trigger type and an expression with a colon between them.

A line whose first word is no number is taken in the old format, which has no
type. A number that does not fit ends the list.
-/
namespace Userworks

/-- What `std::stoul` throws. -/
inductive StoulException where
  | invalidArgument
  | outOfRange
  deriving DecidableEq

/-- `std::stoul(word, nullptr, 0)` with its exceptions told apart. -/
def stoulThrowing (word : Text) : Except StoulException Nat :=
  match stoul word with
  | some value => .ok value
  | none =>
      let (base, rest) := numberBase (numberSign (word.dropWhile isspace)).2
      if leadingDigits base rest = [] then .error .invalidArgument else .error .outOfRange

namespace ExprParser

structure TrgExpression where
  type : BitVec 32
  expr : Text
  deriving DecidableEq

/-- The characters `StripSpaces` removes; other white space stays. -/
def isBlank (c : Char) : Bool := c = ' ' || c = '\t' || c = '\n'

def stripSpaces (str : Text) : Text := (str.rdropWhile isBlank).dropWhile isBlank

/-- A piece of the text that has come to its end. -/
def emplace (pieces : List Text) (piece : Text) : List Text :=
  if (stripSpaces piece).isEmpty then pieces else pieces ++ [stripSpaces piece]

def separateStep (sep : Char) (s : List Text × Text) (c : Char) : List Text × Text :=
  if c = sep then (emplace s.1 s.2, []) else (s.1, s.2 ++ [c])

/-- The loop that both `LineSeparation` and `Parsing` contain. -/
def separate (sep : Char) (text : Text) : List Text :=
  let s := text.foldl (separateStep sep) ([], [])
  emplace s.1 s.2

def lineSeparation (param : Text) : List Text := separate ';' param

/-- The `try` block of `Parsing` on the words of a line, none where it leaves the
loop. A word that does not exist is undefined behaviour. -/
def readTrigger (words : List Text) : Except Fault (Option TrgExpression) :=
  match words[0]? with
  | none => .error .undefined
  | some first =>
      match stoulThrowing first with
      | .ok ll =>
          match words[1]? with
          | none => .error .undefined
          | some second => .ok (some { type := BitVec.ofNat 32 ll, expr := second })
      | .error .invalidArgument => .ok (some { type := 0xaa000000, expr := first })
      | .error .outOfRange => .ok none

/-- The loop of `Parsing` over the lines. -/
def parsingLines (trig : List TrgExpression) : List Text → Except Fault (List TrgExpression)
  | [] => .ok trig
  | line :: lines =>
      match readTrigger (separate ':' line) with
      | .error fault => .error fault
      | .ok none => .ok trig
      | .ok (some t) => parsingLines (trig ++ [t]) lines

def parsing (expression : Text) : Except Fault (List TrgExpression) :=
  parsingLines [] (lineSeparation expression)

theorem emplace_eq (pieces : List Text) (piece : Text) :
    emplace pieces piece = pieces ++ segment isBlank piece := by
  change (if (trim isBlank piece).isEmpty then pieces else pieces ++ [trim isBlank piece]) = _
  rw [segment]
  cases (trim isBlank piece).isEmpty with
  | true => rw [if_pos rfl, if_pos rfl, List.append_nil]
  | false => rfl

/-- The loop has found the segments of what it has read and holds the piece that
no separator has ended yet. -/
theorem emplace_foldl (sep : Char) (pieces : List Text) (piece text : Text) (h : sep ∉ piece) :
    emplace (text.foldl (separateStep sep) (pieces, piece)).1
        (text.foldl (separateStep sep) (pieces, piece)).2 =
      pieces ++ segments isBlank sep (piece ++ text) := by
  induction text generalizing pieces piece with
  | nil => rw [List.append_nil, segments_of_not_mem h, List.foldl_nil, emplace_eq]
  | cons c text ih =>
      rw [List.foldl_cons, separateStep]
      by_cases hc : c = sep
      · rw [if_pos hc, ih _ [] (by simp), List.nil_append, emplace_eq, hc, segments_append_sep,
          segments_of_not_mem h, List.append_assoc]
      · rw [if_neg hc, ih pieces (piece ++ [c]) (by simp [h, Ne.symm hc]), List.append_assoc,
          List.singleton_append]

theorem separate_eq_segments (sep : Char) (text : Text) :
    separate sep text = segments isBlank sep text :=
  emplace_foldl sep [] [] text (by simp)

end ExprParser
end Userworks
