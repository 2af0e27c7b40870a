import Userworks.Lib.Guarded
import Userworks.LogicFilter.LogiCalc

/-!
How high the stack of the calculator stands after a list of commands. The height
does not depend on the input pattern, and every operator but one tests it before
it takes anything off; so whether a formula can read an empty stack is decided
by its words, dropped ones included.
-/
namespace Userworks
namespace LogiCalc

/-- The stack height after one command, from the height before it. -/
def commandHeight (height : Nat) (com : Text) : Nat :=
  if com.all isdigit then height + 1
  else if com = ['&'] ∨ com = ['*'] ∨ com = ['|'] ∨ com = ['+'] then
    if 1 < height then height - 1 else height
  else if com = ['d'] ∨ com = ['p'] then height - 1
  else height

/-- The one operator that takes from the stack unasked finds something there. -/
def Fed (height : Nat) (com : Text) : Prop :=
  com = ['!'] ∨ com = ['^'] → 0 < height

instance (height : Nat) (com : Text) : Decidable (Fed height com) :=
  inferInstanceAs (Decidable (com = ['!'] ∨ com = ['^'] → 0 < height))

/-- No command of the list meets an empty stack it would read. -/
def StackSafe (coms : List Text) : Prop := Guarded Fed commandHeight 0 coms

instance (coms : List Text) : Decidable (StackSafe coms) :=
  Guarded.decidable Fed commandHeight 0 coms

/-- The words `ComPushBack` keeps. -/
def accepts (word : Text) : Bool :=
  if word.all isdigit then
    decide (0 < word.length ∧ 0 ≤ atoi word ∧ atoi word < fNsigMax)
  else fFuncs.contains word

/-- The stack height after one word of a formula text; a word that is dropped
leaves it alone. -/
def wordHeight (height : Nat) (word : Text) : Nat :=
  if accepts word then commandHeight height word else height

theorem calcStep_passed (val : BitVec 32) (stack : List Bool) (com : Text)
    (hfed : Fed stack.length com) :
    ∃ stack', calcStep val stack com = .ok stack' ∧
      stack'.length = commandHeight stack.length com := by
  rw [calcStep.eq_def, commandHeight]
  -- The tests of the code tell stacks of no, one and more cells apart.
  cases stack with
  | nil => grind [Fed]
  | cons vtop stack =>
      cases stack with
      | nil => grind [Fed]
      | cons vnext stack => grind [Fed]

theorem calcStep_refused (val : BitVec 32) (stack : List Bool) (com : Text)
    (hunfed : ¬ Fed stack.length com) : calcStep val stack com = .error .undefined := by
  have hempty : stack = [] := by
    cases stack with
    | nil => rfl
    | cons vtop stack => exact absurd (fun _ => Nat.succ_pos _) hunfed
  have hcom : com = ['!'] ∨ com = ['^'] := by
    apply Classical.byContradiction
    intro hother
    exact hunfed fun h => absurd h hother
  subst hempty
  cases hcom with
  | inl heq =>
      subst heq
      rfl
  | inr heq =>
      subst heq
      rfl

theorem calcStep_measured (val : BitVec 32) :
    Measured (calcStep val) List.length Fed commandHeight where
  passed := calcStep_passed val
  refused stack com hunfed := ⟨_, calcStep_refused val stack com hunfed⟩

/-- Whether `Calc` is defined does not depend on the pattern. -/
theorem calcFormula_defined_iff (lc : LogiCalc) (val : BitVec 32) :
    (∃ b, lc.calcFormula val = .ok b) ↔ StackSafe lc.fCommands := by
  have hrun := (calcStep_measured val).foldlM_defined_iff [] lc.fCommands
  rw [List.length_nil] at hrun
  rw [StackSafe, ← hrun, calcFormula, run]
  cases List.foldlM (calcStep val) [] lc.fCommands with
  | error fault =>
      constructor <;> (intro h; obtain ⟨_, h⟩ := h; cases h)
  | ok stack => exact iff_of_true ⟨_, rfl⟩ ⟨_, rfl⟩

theorem comPushBack_fCommands (lc : LogiCalc) (word : Text) :
    (lc.comPushBack word).fCommands = lc.fCommands ++ [word].filter accepts := by
  cases word with
  | nil => simp [comPushBack, accepts]
  | cons c word =>
      simp only [comPushBack, List.length_cons, Nat.succ_pos, if_true]
      by_cases hnum : (c :: word).all isdigit
      · by_cases hrange : 0 ≤ atoi (c :: word) ∧ atoi (c :: word) < fNsigMax
        · have hkeep : accepts (c :: word) = true := by simp [accepts, hnum, hrange]
          simp only [hnum, hrange, and_self, if_true, List.filter_cons_of_pos hkeep,
            List.filter_nil]
        · have hdrop : ¬ accepts (c :: word) = true := by simp [accepts, hnum, hrange]
          simp only [hnum, hrange, if_true, if_false, List.filter_cons_of_neg hdrop,
            List.filter_nil, List.append_nil]
      · by_cases hfunc : (c :: word) ∈ fFuncs
        · have hkeep : accepts (c :: word) = true := by simp [accepts, hnum, hfunc]
          simp [hnum, hfunc, List.filter_cons_of_pos hkeep]
        · have hdrop : ¬ accepts (c :: word) = true := by simp [accepts, hnum, hfunc]
          simp [hnum, hfunc, List.filter_cons_of_neg hdrop]

theorem ofRpn_fCommands (sparam : Text) :
    (ofRpn sparam).fCommands = ((sparam.drop 3).splitOn ' ').filter accepts := by
  have hloop : ∀ (words : List Text) (lc : LogiCalc),
      (words.foldl (fun lc word => if word.length > 0 then lc.comPushBack word else lc)
        lc).fCommands = lc.fCommands ++ words.filter accepts := by
    intro words
    induction words with
    | nil => intro lc; simp
    | cons word words ih =>
        intro lc
        have hguard : (if word.length > 0 then lc.comPushBack word else lc) =
            lc.comPushBack word := by
          cases word <;> simp [comPushBack]
        rw [List.foldl_cons, hguard, ih, comPushBack_fCommands, List.append_assoc,
          ← List.filter_append]
        rfl
  exact hloop _ {}

/-- Over a text the kept words are fed exactly when no `!` stands on height zero. -/
theorem stackSafe_filter_iff (words : List Text) :
    StackSafe (words.filter accepts) ↔
      ∀ before after, words = before ++ ['!'] :: after → 0 < before.foldl wordHeight 0 := by
  rw [StackSafe, guarded_filter, guarded_iff_split]
  constructor
  · intro h before after heq
    exact h before ['!'] after heq (by decide) (Or.inl rfl)
  · intro h before com after heq hkeep hcom
    cases hcom with
    | inl hbang =>
        subst hbang
        exact h before after heq
    | inr hcaret =>
        subst hcaret
        exact absurd hkeep (by decide)

/-- For every postfix text and every pattern, the evaluation never looks at an
empty stack exactly when each `!` of the text comes after words that leave
something on the stack. -/
theorem evaluation_of_rpn_defined_iff (sparam : Text)
    (hrpn : sparam.take 3 = ['R', 'P', 'N'] ∨ sparam.take 3 = ['r', 'p', 'n'])
    (val : BitVec 32) :
    (∃ lc b, setFormula infixtorpn sparam = .ok lc ∧ lc.calcFormula val = .ok b) ↔
      ∀ before after, (sparam.drop 3).splitOn ' ' = before ++ ['!'] :: after →
        0 < before.foldl wordHeight 0 := by
  rw [← stackSafe_filter_iff, ← ofRpn_fCommands, ← calcFormula_defined_iff _ val,
    setFormula_rpn infixtorpn hrpn]
  constructor
  · intro h
    obtain ⟨lc, b, heq, hcalc⟩ := h
    cases heq
    exact ⟨b, hcalc⟩
  · intro h
    obtain ⟨b, hcalc⟩ := h
    exact ⟨_, b, rfl, hcalc⟩

/-- The height counts every kind of word: a number, two operators that are let
through on a low stack, a dropped word. -/
theorem evaluation_of_rpn_defined_iff_veto :
    (∃ lc b, setFormula infixtorpn "RPN 0 & x 99 ! 1 |".toList = .ok lc ∧
        lc.calcFormula 2 = .ok b) ↔
      ∀ before after, ("RPN 0 & x 99 ! 1 |".toList.drop 3).splitOn ' ' =
          before ++ ['!'] :: after → 0 < before.foldl wordHeight 0 :=
  evaluation_of_rpn_defined_iff _ (by decide) 2

/-- In `RPN 0 d !` the operator `d` has emptied the stack. -/
theorem negation_of_empty_stack :
    ¬ ∃ lc b, setFormula infixtorpn "RPN 0 d !".toList = .ok lc ∧
        lc.calcFormula 0 = .ok b := by
  intro h
  obtain ⟨lc, b, hset, hcalc⟩ := h
  have hempty : (setFormula infixtorpn "RPN 0 d !".toList >>= fun lc => lc.calcFormula 0) =
      .error .undefined := by
    decide
  rw [hset] at hempty
  exact absurd (hcalc.symm.trans hempty) (by simp)

end LogiCalc
end Userworks
