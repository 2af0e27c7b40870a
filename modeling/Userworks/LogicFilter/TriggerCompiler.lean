import Userworks.LogicFilter.InfixParsing
import Userworks.LogicFilter.TriggerMap

/-!
Correctness of the trigger compiler for infix formulas: the table that
`MakeTable` builds on a fresh map answers every 32-bit pattern with the value of
the expression the formula text denotes.

The chain is tokenizer, parser, postfix text, word split, stack run, table and
mask; each link has its own lemma.
-/
namespace Userworks

namespace Expr

/-- The highest signal index. -/
def sigMax : Expr → Nat
  | signal numeral => decimal numeral
  | neg e => e.sigMax
  | conj l r | disj l r => max l.sigMax r.sigMax

theorem le_sigMax (e : Expr) : ∀ i ∈ e.signals, i ≤ e.sigMax := by
  induction e with
  | signal numeral => simp [signals, sigMax]
  | neg e ih => exact ih
  | conj l r ihl ihr | disj l r ihl ihr =>
      intro i hi
      cases List.mem_append.mp hi with
      | inl hi =>
          exact Nat.le_trans (ihl i hi) (Nat.le_max_left _ _)
      | inr hi =>
          exact Nat.le_trans (ihr i hi) (Nat.le_max_right _ _)

theorem sigMax_le (e : Expr) (bound : Nat) (h : ∀ i ∈ e.signals, i ≤ bound) :
    e.sigMax ≤ bound := by
  induction e with
  | signal numeral => exact h (decimal numeral) (by simp [signals])
  | neg e ih => exact ih h
  | conj l r ihl ihr | disj l r ihl ihr =>
      exact Nat.max_le.mpr ⟨ihl fun i hi => h i (by simp [signals, hi]),
        ihr fun i hi => h i (by simp [signals, hi])⟩

/-- Only the bits of the signals in the expression matter. -/
theorem eval_congr (e : Expr) (v w : BitVec 32)
    (h : ∀ i ∈ e.signals, v.getLsbD i = w.getLsbD i) : e.eval v = e.eval w := by
  induction e with
  | signal numeral => exact h _ (by simp [signals])
  | neg e ih => simp only [eval, ih h]
  | conj l r ihl ihr | disj l r ihl ihr =>
      simp only [eval, ihl fun i hi => h i (by simp [signals, hi]),
        ihr fun i hi => h i (by simp [signals, hi])]

theorem Written.words {e : Expr} (h : e.Written) :
    ∀ word ∈ e.words, IsNumeral word ∨ word = ['!'] ∨ word = ['&'] ∨ word = ['|'] := by
  induction e with
  | signal numeral => simpa [Expr.words] using Or.inl (h numeral (by simp [numerals]))
  | neg e ih =>
      intro word hw
      simp only [Expr.words, List.mem_append, List.mem_singleton] at hw
      cases hw with
      | inl hw =>
          exact ih h word hw
      | inr heq =>
          subst heq
          simp
  | conj l r ihl ihr | disj l r ihl ihr =>
      intro word hw
      simp only [Expr.words, List.mem_append, List.mem_singleton] at hw
      rcases hw with (hw | hw) | rfl
      · exact ihl (fun n hn => h n (by simp [numerals, hn])) word hw
      · exact ihr (fun n hn => h n (by simp [numerals, hn])) word hw
      · simp

end Expr

theorem IsNumeral.space_not_mem {word : Text} (h : IsNumeral word) : ' ' ∉ word := by
  intro hm
  have hd := List.all_eq_true.mp h.2 ' ' hm
  exact absurd hd (by decide)

/-- An infix text cannot be taken for a formula in postfix notation. -/
theorem Spaced.not_rpn {text : Text} {tokens : List Text} (h : Spaced text tokens)
    (sep : Separable tokens) :
    ¬ (text.take 3 = ['R', 'P', 'N'] ∨ text.take 3 = ['r', 'p', 'n']) := by
  have hhead : ∀ c ∈ text.head?,
      isspace c = true ∨ isOperator true c = true ∨ isdigit c = true := by
    cases h with
    | finish hws =>
        intro c hc
        simp only [List.all_eq_true] at hws
        exact Or.inl (hws c (List.mem_of_mem_head? hc))
    | @token ws token text tokens hws _ =>
        intro c hc
        cases ws with
        | cons w ws =>
            obtain rfl : w = c := by simpa using hc
            simp only [List.all_cons, Bool.and_eq_true] at hws
            exact Or.inl hws.1
        | nil =>
            rcases sep.1 token (by simp) with ⟨d, rfl, hd⟩ | hnum
            · obtain rfl : d = c := by simpa using hc
              exact Or.inr (Or.inl hd)
            · obtain ⟨d, digits, rfl⟩ := List.exists_cons_of_ne_nil hnum.1
              obtain rfl : d = c := by simpa using hc
              have hall := hnum.2
              simp only [List.all_cons, Bool.and_eq_true] at hall
              exact Or.inr (Or.inr hall.1)
  have first : ∀ c rest, text.take 3 = c :: rest → text.head? = some c := by
    intro c rest heq
    cases text with
    | nil => simp at heq
    | cons d text => simpa using (List.cons.inj heq).1
  rintro (heq | heq)
  · exact absurd (hhead _ (by rw [first _ _ heq]; rfl)) (by decide)
  · exact absurd (hhead _ (by rw [first _ _ heq]; rfl)) (by decide)

namespace LogiCalc

theorem comPushBack_numeral (lc : LogiCalc) (word : Text) (h : IsNumeral word)
    (hsmall : decimal word < 32) :
    lc.comPushBack word =
      { fCommands := lc.fCommands ++ [word], fSigMax := max lc.fSigMax (decimal word) } := by
  have hvalue : atoi word = decimal word := atoi_eq_decimal word (by omega)
  have hrange : (0 : Int) ≤ decimal word ∧ (decimal word : Int) < fNsigMax := by
    simp only [fNsigMax]; omega
  simp only [comPushBack, List.length_pos_iff.mpr h.1, if_true, h.2, hvalue, hrange,
    and_self, Int.toNat_natCast]
  congr 1
  split <;> omega

theorem comPushBack_operator (lc : LogiCalc) (c : Char) (hdigit : isdigit c = false)
    (hfunc : [c] ∈ fFuncs) :
    lc.comPushBack [c] = { lc with fCommands := lc.fCommands ++ [[c]] } := by
  simp [comPushBack, hdigit, hfunc]

theorem foldl_comPushBack (e : Expr) (h : e.Written) (hsmall : e.sigMax < 32)
    (lc : LogiCalc) :
    e.words.foldl comPushBack lc =
      { fCommands := lc.fCommands ++ e.words, fSigMax := max lc.fSigMax e.sigMax } := by
  induction e generalizing lc with
  | signal numeral =>
      exact comPushBack_numeral lc numeral (h numeral (by simp [Expr.numerals])) hsmall
  | neg e ih =>
      rw [Expr.words, List.foldl_append, ih h hsmall]
      simp only [List.foldl_cons, List.foldl_nil, Expr.sigMax]
      rw [comPushBack_operator _ _ (by decide) (by decide)]
      simp
  | conj l r ihl ihr | disj l r ihl ihr =>
      simp only [Expr.sigMax] at hsmall ⊢
      rw [Expr.words, List.foldl_append, List.foldl_append,
        ihl (fun n hn => h n (by simp [Expr.numerals, hn])) (by omega),
        ihr (fun n hn => h n (by simp [Expr.numerals, hn])) (by omega)]
      simp only [List.foldl_cons, List.foldl_nil]
      rw [comPushBack_operator _ _ (by decide) (by decide)]
      simp [Nat.max_assoc]

theorem setFormula_infix {text : Text} {tokens : List Text} {e : Expr}
    (spaced : Spaced text tokens) (derived : Derives .or tokens e)
    (hsmall : e.sigMax < 32) :
    setFormula infixtorpn text = .ok { fCommands := e.words, fSigMax := e.sigMax } := by
  have hwritten : e.Written := derived.written (by simp)
  have hpostfix : postfixText infixtorpn text = .ok (e.words.flatMap (· ++ [' '])) := by
    rw [postfixText, if_neg (spaced.not_rpn derived.separable),
      infixtorpn_derived spaced derived, ← e.toRpn_ast]
    cases e <;> rfl
  have hsplit : (e.words.flatMap (· ++ [' '])).splitOn ' ' = e.words ++ [[]] := by
    apply splitOn_terminated
    intro word hw
    rcases hwritten.words word hw with hnum | rfl | rfl | rfl
    · exact hnum.space_not_mem
    all_goals decide
  have hguard : (fun (lc : LogiCalc) (word : Text) =>
      if word.length > 0 then lc.comPushBack word else lc) = comPushBack := by
    funext lc word
    cases word <;> simp [comPushBack]
  rw [setFormula, hpostfix]
  simp only [bind, Except.bind, pure, Except.pure, hsplit, hguard, List.foldl_append,
    foldl_comPushBack e hwritten hsmall]
  simp [comPushBack]

/-- Running the words of an expression pushes its value. -/
theorem run_words (e : Expr) (h : e.Written) (hsmall : e.sigMax < 32)
    (val : BitVec 32) (stack : List Bool) :
    run val stack e.words = .ok (e.eval val :: stack) := by
  induction e generalizing stack with
  | signal numeral =>
      have hnum := h numeral (by simp [Expr.numerals])
      have hvalue : atoi numeral = decimal numeral :=
        atoi_eq_decimal numeral (by simp only [Expr.sigMax] at hsmall; omega)
      simp only [Expr.words, run, List.foldlM_cons, List.foldlM_nil, calcStep, hnum.2, if_true,
        hvalue, extractBit_natCast]
      rfl
  | neg e ih =>
      rw [Expr.words, run_append, ih h hsmall]
      rfl
  | conj l r ihl ihr | disj l r ihl ihr =>
      simp only [Expr.sigMax] at hsmall
      rw [Expr.words, run_append, run_append,
        ihl (fun n hn => h n (by simp [Expr.numerals, hn])) (by omega)]
      simp only [Except.bind]
      rw [ihr (fun n hn => h n (by simp [Expr.numerals, hn])) (by omega)]
      simp only [Expr.eval, Bool.and_comm (l.eval val), Bool.or_comm (l.eval val)]
      rfl

end LogiCalc

/-- Every spelling of every expression over signals up to 30 compiles to a table
that is read inside its bounds and gives the value of the expression. -/
theorem trigger_compiler_correct {text : Text} {tokens : List Text} {e : Expr}
    (spaced : Spaced text tokens) (derived : Derives .or tokens e)
    (small : ∀ i ∈ e.signals, i ≤ 30) :
    ∃ tm, ({} : TriggerMap).makeTable text = .ok tm ∧
      ∀ v, tm.lookUpIndex v < tm.fLut.length ∧ tm.lookUp v = e.eval v := by
  have hmax : e.sigMax ≤ 30 := e.sigMax_le 30 small
  have hwritten : e.Written := derived.written (by simp)
  have hset := LogiCalc.setFormula_infix spaced derived (by omega)
  have hvalue : ∀ v, LogiCalc.calcFormula { fCommands := e.words, fSigMax := e.sigMax } v =
      .ok (e.eval v) := by
    intro v
    rw [LogiCalc.calcFormula, LogiCalc.run_words e hwritten (by omega)]
    rfl
  obtain ⟨tm, hmake, hlook⟩ := TriggerMap.lookUp_makeTable hset hmax hvalue
  refine ⟨tm, hmake, fun v => ⟨(hlook v).1, ?_⟩⟩
  rw [(hlook v).2]
  apply e.eval_congr
  intro i hi
  have hi' : i < e.sigMax + 1 := Nat.lt_succ_of_le (e.le_sigMax i hi)
  rw [BitVec.getLsbD_ofNat, Nat.testBit_mod_two_pow]
  simp [hi', show i < 32 by omega, BitVec.testBit_toNat]

/-- The formula `!0 & 12`, written with a tab before the conjunction. -/
theorem trigger_compiler_correct_veto :
    ∃ tm, ({} : TriggerMap).makeTable "!0\t&12".toList = .ok tm ∧
      ∀ v, tm.lookUpIndex v < tm.fLut.length ∧
        tm.lookUp v = (!v.getLsbD 0 && v.getLsbD 12) := by
  have spaced : Spaced "!0\t&12".toList [['!'], ['0'], ['&'], ['1', '2']] :=
    @Spaced.token [] ['!'] _ _ rfl <| @Spaced.token [] ['0'] _ _ rfl <|
      @Spaced.token ['\t'] ['&'] _ _ rfl <| @Spaced.token [] ['1', '2'] [] _ rfl <|
        .finish rfl
  have derived : Derives .or ([['!'], ['0'], ['&'], ['1', '2']] ++ [])
      (.conj (.neg (.signal ['0'])) (.signal ['1', '2'])) :=
    .or (@Derives.and [['!'], ['0']] [['&'], ['1', '2']] _ _
      (.bang (.operand (.digits ⟨by decide, rfl⟩)))
      (@Derives.andMore [['1', '2']] [] _ _ _ (.operand (.digits ⟨by decide, rfl⟩)) .andEnd))
      .orEnd
  exact trigger_compiler_correct spaced derived (by decide)

end Userworks
