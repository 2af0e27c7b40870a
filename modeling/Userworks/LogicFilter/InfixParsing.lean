import Userworks.LogicFilter.InfixGrammar

/-!
The recursive-descent parser follows a derivation of the grammar: a derivable
token list is parsed into the tree of its expression whatever tokens follow, as
long as they cannot continue it. What the parser does with other token lists is
not the subject here.
-/
namespace Userworks

/-- The tokens that may follow a phrase without being read as part of it. -/
def Stops : Phrase → List Text → Prop
  | .or, rest | .orTail _, rest => rest.head? ≠ some ['|'] ∧ rest.head? ≠ some ['&']
  | .and, rest | .andTail _, rest => rest.head? ≠ some ['&']
  | .not, _ | .value, _ => True

namespace Phrase

/-- The parser function that reads the phrase. -/
def parse (fuel : Nat) : Phrase → Parser
  | or => parseOr true fuel
  | orTail left => parseOrLoop true fuel left.ast
  | and => parseAnd true fuel
  | andTail left => parseAndLoop true fuel left.ast
  | not => parseNot true fuel
  | value => parseValue true fuel

/-- Calls made before the first token of the phrase is taken. -/
def depth : Phrase → Nat
  | or => 4
  | and => 3
  | not => 2
  | orTail _ | andTail _ | value => 1

end Phrase

theorem parseOrLoop_bar (fuel : Nat) (left : Expr) (tokens : List Text) :
    parseOrLoop true (fuel + 1) left.ast (['|'] :: tokens) = (do
      let (right, tokens) ← parseAnd true fuel tokens
      parseOrLoop true fuel (.node ['|'] left.ast right) tokens) := by
  cases left <;> rfl

theorem parseAndLoop_amp (fuel : Nat) (left : Expr) (tokens : List Text) :
    parseAndLoop true (fuel + 1) left.ast (['&'] :: tokens) = (do
      let (right, tokens) ← parseNot true fuel tokens
      parseAndLoop true fuel (.node ['&'] left.ast right) tokens) := by
  cases left <;> rfl

theorem parseOrLoop_stop (fuel : Nat) (left : Ast) (tokens : List Text)
    (h : tokens.head? ≠ some ['|']) :
    parseOrLoop true (fuel + 1) left tokens = .ok (left, tokens) := by
  rw [parseOrLoop]
  rintro value l r rest - rfl
  exact h rfl

theorem parseAndLoop_stop (fuel : Nat) (left : Ast) (tokens : List Text)
    (h : tokens.head? ≠ some ['&']) :
    parseAndLoop true (fuel + 1) left tokens = .ok (left, tokens) := by
  rw [parseAndLoop]
  rintro value l r rest - rfl
  exact h rfl

theorem Derives.value_head {ts : List Text} {e : Expr} (h : Derives .value ts e) :
    ts ≠ [] ∧ ts.head? ≠ some ['!'] := by
  cases h with
  | paren _ => simp
  | digits hnum =>
      refine ⟨by simp, ?_⟩
      rintro heq
      obtain rfl := Option.some.inj heq
      exact absurd hnum.2 (by decide)

/-- Behind an operand of the bar there is no ampersand. -/
theorem Derives.next_not_amp {left : Expr} {us rest : List Text} {e : Expr}
    (h : Derives (.orTail left) us e) (hstop : Stops .or rest) :
    (us ++ rest).head? ≠ some ['&'] := by
  cases h.tail_head with
  | inl heq =>
      rw [heq]
      exact hstop.2
  | inr hhead => simp [List.head?_append, hhead]

theorem Derives.parse {p : Phrase} {ts : List Text} {e : Expr} (h : Derives p ts e)
    (rest : List Text) (fuel : Nat) (hfuel : 4 * ts.length + p.depth ≤ fuel)
    (hstop : Stops p rest) : p.parse fuel (ts ++ rest) = .ok (e.ast, rest) := by
  induction h generalizing rest fuel with
  | @or ts us left e _ htail ihl iht =>
      simp only [List.length_append, Phrase.depth] at hfuel
      obtain ⟨fuel, rfl⟩ := Nat.exists_eq_add_of_lt (show 0 < fuel by omega)
      have hleft := ihl (us ++ rest) (0 + fuel) (by simp only [Phrase.depth]; omega)
        (htail.next_not_amp hstop)
      have hloop := iht rest (0 + fuel) (by simp only [Phrase.depth]; omega) hstop
      simp only [Phrase.parse] at hleft hloop ⊢
      rw [parseOr, List.append_assoc, hleft]
      exact hloop
  | @orEnd left =>
      obtain ⟨fuel, rfl⟩ := Nat.exists_eq_add_of_lt (show 0 < fuel by
        simp only [Phrase.depth] at hfuel; omega)
      exact parseOrLoop_stop _ _ _ hstop.1
  | @orMore ts us left right e _ htail ihr iht =>
      simp only [List.length_append, List.length_cons, Phrase.depth] at hfuel
      obtain ⟨fuel, rfl⟩ := Nat.exists_eq_add_of_lt (show 0 < fuel by omega)
      have hright := ihr (us ++ rest) (0 + fuel) (by simp only [Phrase.depth]; omega)
        (htail.next_not_amp hstop)
      have hloop := iht rest (0 + fuel) (by simp only [Phrase.depth]; omega) hstop
      simp only [Phrase.parse] at hright hloop ⊢
      rw [List.cons_append, List.cons_append, List.append_assoc, parseOrLoop_bar, hright]
      exact hloop
  | @and ts us left e _ htail ihl iht =>
      simp only [List.length_append, Phrase.depth] at hfuel
      obtain ⟨fuel, rfl⟩ := Nat.exists_eq_add_of_lt (show 0 < fuel by omega)
      have hleft := ihl (us ++ rest) (0 + fuel) (by simp only [Phrase.depth]; omega) trivial
      have hloop := iht rest (0 + fuel) (by simp only [Phrase.depth]; omega) hstop
      simp only [Phrase.parse] at hleft hloop ⊢
      rw [parseAnd, List.append_assoc, hleft]
      exact hloop
  | @andEnd left =>
      obtain ⟨fuel, rfl⟩ := Nat.exists_eq_add_of_lt (show 0 < fuel by
        simp only [Phrase.depth] at hfuel; omega)
      exact parseAndLoop_stop _ _ _ hstop
  | @andMore ts us left right e _ htail ihr iht =>
      simp only [List.length_append, List.length_cons, Phrase.depth] at hfuel
      obtain ⟨fuel, rfl⟩ := Nat.exists_eq_add_of_lt (show 0 < fuel by omega)
      have hright := ihr (us ++ rest) (0 + fuel) (by simp only [Phrase.depth]; omega) trivial
      have hloop := iht rest (0 + fuel) (by simp only [Phrase.depth]; omega) hstop
      simp only [Phrase.parse] at hright hloop ⊢
      rw [List.cons_append, List.cons_append, List.append_assoc, parseAndLoop_amp, hright]
      exact hloop
  | @bang ts e _ ih =>
      simp only [List.length_cons, Phrase.depth] at hfuel
      obtain ⟨fuel, rfl⟩ := Nat.exists_eq_add_of_lt (show 0 < fuel by omega)
      have hoperand := ih rest (0 + fuel) (by simp only [Phrase.depth]; omega) trivial
      simp only [Phrase.parse] at hoperand ⊢
      simp only [List.cons_append, parseNot, List.head?_cons, decide_true, Bool.and_self,
        if_true, List.tail_cons, hoperand]
      rfl
  | @operand ts e hvalue ih =>
      simp only [Phrase.depth] at hfuel
      obtain ⟨fuel, rfl⟩ := Nat.exists_eq_add_of_lt (show 0 < fuel by omega)
      have hnot : (ts ++ rest).head? ≠ some ['!'] := by
        rw [List.head?_append_of_ne_nil _ hvalue.value_head.1]
        exact hvalue.value_head.2
      have hread := ih rest (0 + fuel) (by simp only [Phrase.depth]; omega) trivial
      simp only [Phrase.parse] at hread ⊢
      simp only [parseNot, hnot, decide_false, Bool.and_false, if_false, hread,
        Bool.false_eq_true]
  | @paren ts e _ ih =>
      simp only [List.length_append, List.length_cons, Phrase.depth] at hfuel
      obtain ⟨fuel, rfl⟩ := Nat.exists_eq_add_of_lt (show 0 < fuel by omega)
      have hinner := ih ([')'] :: rest) (0 + fuel) (by simp only [Phrase.depth]; omega)
        (by simp [Stops])
      simp only [Phrase.parse] at hinner ⊢
      simp only [List.cons_append, List.append_assoc, List.nil_append, parseValue, if_true,
        hinner]
      rfl
  | @digits numeral hnum =>
      simp only [Phrase.depth] at hfuel
      obtain ⟨fuel, rfl⟩ := Nat.exists_eq_add_of_lt (show 0 < fuel by omega)
      obtain ⟨c, digits, rfl⟩ := List.exists_cons_of_ne_nil hnum.1
      have hc : isdigit c = true := by
        have := hnum.2
        simp only [List.all_cons, Bool.and_eq_true] at this
        exact this.1
      have hopen : c :: digits ≠ ['('] := by
        rintro heq
        obtain ⟨rfl, -⟩ := List.cons.inj heq
        exact absurd hc (by decide)
      simp only [Phrase.parse, List.cons_append, List.nil_append, parseValue, hopen,
        if_false, List.head?_cons, Option.map_some, hc, Option.getD_some, if_true]
      rfl

theorem infixtorpn_of_derives {text : Text} {tokens : List Text} {e : Expr}
    (h : tokenize true text = .ok tokens) (derived : Derives .or tokens e) :
    infixtorpn text = .ok e.ast := by
  have hparse := derived.parse [] (4 * tokens.length + 4) (by simp [Phrase.depth])
    (by simp [Stops])
  rw [List.append_nil] at hparse
  simp only [Phrase.parse] at hparse
  rw [infixtorpn, infixToRpn, h]
  simp only [bind, Except.bind, hparse]
  rfl

/-- A text that writes an expression of the grammar is compiled to its tree. -/
theorem infixtorpn_derived {text : Text} {tokens : List Text} {e : Expr}
    (spaced : Spaced text tokens) (derived : Derives .or tokens e) :
    infixtorpn text = .ok e.ast :=
  infixtorpn_of_derives (tokenize_spaced spaced derived.separable) derived

end Userworks
