import Userworks.Lib.Text

/-!
The infix trigger expression compiler: the tokenizer, the recursive-descent
parser over a token queue and the printing of the tree in postfix order.

The two shipped copies of the file differ in the operator `!` only, so the
definitions take the flag `bang`: with it the tokenizer knows the character and
an operand of `&` may be negated, without it an operand is a value. The parser
functions call each other through a fuel argument; `infixToRpn` starts them with
more than any token queue can use.
-/
namespace Userworks

/-- An `AstNode` behind its `shared_ptr`; `null` is the empty pointer. -/
inductive Ast where
  | null
  | node (value : Text) (left right : Ast)
  deriving DecidableEq, Repr

def Ast.toRpn : Ast → Text
  | .null => []
  | .node value left right => left.toRpn ++ right.toRpn ++ (value ++ [' '])

def isOperator (bang : Bool) (c : Char) : Bool :=
  c = '(' || c = ')' || c = '|' || c = '&' || (bang && c = '!')

def tokenize (bang : Bool) (line : Text) : Except Fault (List Text) :=
  match _h : line.dropWhile isspace with
  | [] => .ok []
  | c :: rest =>
      if isOperator bang c then do
        let tokens ← tokenize bang rest
        return [c] :: tokens
      else if isdigit c then do
        let tokens ← tokenize bang (rest.dropWhile isdigit)
        return (c :: rest.takeWhile isdigit) :: tokens
      else .error (.runtimeError ("invalid char: ".toList ++ [c]))
termination_by line.length
decreasing_by
  all_goals
    have hsuffix := (List.dropWhile_suffix isspace (l := line)).length_le
    have hdigits := (List.dropWhile_suffix isdigit (l := rest)).length_le
    rw [_h, List.length_cons] at hsuffix
    omega

abbrev Parser := List Text → Except Fault (Ast × List Text)

mutual

def parseOr (bang : Bool) : Nat → Parser
  | 0, _ => .error .fuel
  | fuel + 1, tokens => do
      let (left, tokens) ← parseAnd bang fuel tokens
      parseOrLoop bang fuel left tokens

/-- The `while` loop of `parse_or`; a null `left` ends it. -/
def parseOrLoop (bang : Bool) : Nat → Ast → Parser
  | 0, _, _ => .error .fuel
  | fuel + 1, .node value l r, ['|'] :: tokens => do
      let (right, tokens) ← parseAnd bang fuel tokens
      parseOrLoop bang fuel (.node ['|'] (.node value l r) right) tokens
  | _ + 1, left, tokens => .ok (left, tokens)

def parseAnd (bang : Bool) : Nat → Parser
  | 0, _ => .error .fuel
  | fuel + 1, tokens => do
      let (left, tokens) ← parseNot bang fuel tokens
      parseAndLoop bang fuel left tokens

def parseAndLoop (bang : Bool) : Nat → Ast → Parser
  | 0, _, _ => .error .fuel
  | fuel + 1, .node value l r, ['&'] :: tokens => do
      let (right, tokens) ← parseNot bang fuel tokens
      parseAndLoop bang fuel (.node ['&'] (.node value l r) right) tokens
  | _ + 1, left, tokens => .ok (left, tokens)

/-- With `bang` unset this is the call of `parse_value` in the older copy. -/
def parseNot (bang : Bool) : Nat → Parser
  | 0, _ => .error .fuel
  | fuel + 1, tokens =>
      if bang && tokens.head? = some ['!'] then do
        let (left, tokens) ← parseNot bang fuel tokens.tail
        return (.node ['!'] left .null, tokens)
      else parseValue bang fuel tokens

def parseValue (bang : Bool) : Nat → Parser
  | 0, _ => .error .fuel
  | _ + 1, [] => .ok (.null, [])
  | fuel + 1, token :: tokens =>
      if token = ['('] then do
        let (node, tokens) ← parseOr bang fuel tokens
        if tokens.head? = some [')'] then return (node, tokens.tail)
        else .error (.runtimeError "unmatched '('".toList)
      else if (token.head?.map isdigit).getD false then
        .ok (.node token .null .null, tokens)
      else .error (.runtimeError ("invalid char: ".toList ++ token))

end

def infixToRpn (bang : Bool) (input : Text) : Except Fault Ast := do
  let tokens ← tokenize bang input
  let (ast, rest) ← parseOr bang (4 * tokens.length + 4) tokens
  match rest with
  | [] => return ast
  | token :: _ => .error (.runtimeError ("invalid char: ".toList ++ token))

def infixtorpn : Text → Except Fault Ast := infixToRpn true

/-- The copy under exam6 has no negation. -/
def Exam6.infixtorp : Text → Except Fault Ast := infixToRpn false

end Userworks
