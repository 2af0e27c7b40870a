import Userworks.LogicFilter.Infixtorpn

/-!
The formula calculator: a formula text is cut into postfix words, and the words
are run on a stack of booleans for each 32-bit input pattern.

The copy under exam6 differs in the infix compiler it calls, so `setFormula`
takes the compiler. Reading or popping an empty `std::stack` is undefined, and
the operator `!` is the one place where the code can do it.
-/
namespace Userworks

structure LogiCalc where
  fCommands : List Text := []
  fSigMax : Nat := 0

namespace LogiCalc

def fNsigMax : Int := 32

def fFuncs : List Text := [['&'], ['|'], ['!'], ['x'], ['d']]

def extractBit (val : BitVec 32) (digit : Int) : Bool :=
  if digit < 32 then decide (0 < (val >>> digit.toNat) &&& 1) else false

/-- A number out of range and an unknown word are reported and dropped. -/
def comPushBack (lc : LogiCalc) (word : Text) : LogiCalc :=
  if word.length > 0 then
    if word.all isdigit then
      let sig := atoi word
      if 0 ≤ sig ∧ sig < fNsigMax then
        { fCommands := lc.fCommands ++ [word]
          fSigMax := if sig.toNat > lc.fSigMax then sig.toNat else lc.fSigMax }
      else lc
    else if word ∈ fFuncs then { lc with fCommands := lc.fCommands ++ [word] }
    else lc
  else lc

/-- The postfix text of a formula; the tree of an infix formula is dereferenced
without a check for the null pointer. -/
def postfixText (compile : Text → Except Fault Ast) (sparam : Text) : Except Fault Text :=
  if sparam.take 3 = ['R', 'P', 'N'] ∨ sparam.take 3 = ['r', 'p', 'n'] then
    .ok (sparam.drop 3)
  else do
    match ← compile sparam with
    | .null => .error .undefined
    | ast => .ok ast.toRpn

/-- Whatever formula was set before is cleared. -/
def setFormula (compile : Text → Except Fault Ast) (sparam : Text) : Except Fault LogiCalc := do
  let sform ← postfixText compile sparam
  return (sform.splitOn ' ').foldl
    (fun lc word => if word.length > 0 then lc.comPushBack word else lc) {}

/-- The commands of a formula in postfix form. -/
def ofRpn (sparam : Text) : LogiCalc :=
  ((sparam.drop 3).splitOn ' ').foldl
    (fun lc word => if word.length > 0 then lc.comPushBack word else lc) {}

theorem setFormula_rpn (compile : Text → Except Fault Ast) {sparam : Text}
    (h : sparam.take 3 = ['R', 'P', 'N'] ∨ sparam.take 3 = ['r', 'p', 'n']) :
    setFormula compile sparam = .ok (ofRpn sparam) := by
  rw [setFormula, postfixText, if_pos h]
  rfl

/-- One command of the loop in `Calc`; the top of the stack is the head. -/
def calcStep (val : BitVec 32) (stack : List Bool) (com : Text) :
    Except Fault (List Bool) :=
  if com.all isdigit then .ok (extractBit val (atoi com) :: stack)
  else if com = ['&'] ∨ com = ['*'] then
    match stack with
    | val1 :: val2 :: stack => .ok ((val1 && val2) :: stack)
    | _ => .ok stack
  else if com = ['|'] ∨ com = ['+'] then
    match stack with
    | val1 :: val2 :: stack => .ok ((val1 || val2) :: stack)
    | _ => .ok stack
  else if com = ['x'] then
    match stack with
    | val1 :: val2 :: stack => .ok (val2 :: val1 :: stack)
    | _ => .ok stack
  else if com = ['!'] ∨ com = ['^'] then
    match stack with
    | vtop :: stack => .ok ((!vtop) :: stack)
    | [] => .error .undefined
  else if com = ['d'] ∨ com = ['p'] then .ok stack.tail
  else .ok stack

def run (val : BitVec 32) (stack : List Bool) (coms : List Text) : Except Fault (List Bool) :=
  coms.foldlM (calcStep val) stack

/-- The method `Calc`. An empty stack at the end gives false. -/
def calcFormula (lc : LogiCalc) (val : BitVec 32) : Except Fault Bool := do
  let stack ← run val [] lc.fCommands
  return stack.head?.getD false

theorem extractBit_natCast (val : BitVec 32) (i : Nat) :
    extractBit val i = val.getLsbD i := by
  simp only [extractBit, Int.toNat_natCast]
  split
  · rw [Bool.eq_iff_iff, decide_eq_true_iff]
    have hbit : (val >>> i) &&& 1 = if val.getLsbD i then 1 else 0 := by
      apply BitVec.eq_of_getLsbD_eq
      intro j hj
      cases j with
      | zero => cases h : val.getLsbD i <;> simp [h]
      | succ j => cases h : val.getLsbD i <;> simp [BitVec.getLsbD_one]
    rw [hbit]
    split <;> simp_all
  · rw [BitVec.getLsbD_of_ge]
    omega

theorem run_append (val : BitVec 32) (stack : List Bool) (as bs : List Text) :
    run val stack (as ++ bs) = (run val stack as).bind fun stack => run val stack bs := by
  simp only [run, List.foldlM_append]
  rfl

end LogiCalc
end Userworks
