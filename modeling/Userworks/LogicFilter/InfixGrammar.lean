import Userworks.LogicFilter.Infixtorpn
import Mathlib.Data.List.Chain
import Mathlib.Data.List.TakeWhile

/-!
The grammar of trigger expressions, and the tokenizer on texts that write them.

`Derives` is the grammar itself, over token lists, with the expression it
describes; `Spaced` says which texts write a token list down. White space is
never needed between the tokens of a derivation, because the grammar puts an
operator between any two numerals.
-/
namespace Userworks

/-- An infix trigger expression; a signal keeps the numeral it is written with. -/
inductive Expr where
  | signal (numeral : Text)
  | neg (e : Expr)
  | conj (l r : Expr)
  | disj (l r : Expr)

namespace Expr

/-- The value under the assignment "signal i is bit i of v". -/
def eval (v : BitVec 32) : Expr → Bool
  | signal numeral => v.getLsbD (decimal numeral)
  | neg e => !e.eval v
  | conj l r => l.eval v && r.eval v
  | disj l r => l.eval v || r.eval v

def signals : Expr → List Nat
  | signal numeral => [decimal numeral]
  | neg e => e.signals
  | conj l r | disj l r => l.signals ++ r.signals

def numerals : Expr → List Text
  | signal numeral => [numeral]
  | neg e => e.numerals
  | conj l r | disj l r => l.numerals ++ r.numerals

/-- Every signal of the expression is written as a number. -/
def Written (e : Expr) : Prop := ∀ numeral ∈ e.numerals, IsNumeral numeral

def ast : Expr → Ast
  | signal numeral => .node numeral .null .null
  | neg e => .node ['!'] e.ast .null
  | conj l r => .node ['&'] l.ast r.ast
  | disj l r => .node ['|'] l.ast r.ast

/-- The postfix words of the expression. -/
def words : Expr → List Text
  | signal numeral => [numeral]
  | neg e => e.words ++ [['!']]
  | conj l r => l.words ++ r.words ++ [['&']]
  | disj l r => l.words ++ r.words ++ [['|']]

theorem toRpn_ast (e : Expr) : e.ast.toRpn = e.words.flatMap (· ++ [' ']) := by
  induction e with
  | signal numeral => simp [ast, Ast.toRpn, words]
  | neg e ih => simp [ast, Ast.toRpn, words, ih]
  | conj l r ihl ihr | disj l r ihl ihr => simp [ast, Ast.toRpn, words, ihl, ihr]

end Expr

/-- The phrases of the grammar; a tail is the repetition part of a rule, after
the expression read so far. -/
inductive Phrase where
  | or
  | orTail (left : Expr)
  | and
  | andTail (left : Expr)
  | not
  | value

inductive Derives : Phrase → List Text → Expr → Prop
  | or {ts us left e} : Derives .and ts left → Derives (.orTail left) us e →
      Derives .or (ts ++ us) e
  | orEnd {left} : Derives (.orTail left) [] left
  | orMore {ts us left right e} : Derives .and ts right →
      Derives (.orTail (.disj left right)) us e →
      Derives (.orTail left) (['|'] :: ts ++ us) e
  | and {ts us left e} : Derives .not ts left → Derives (.andTail left) us e →
      Derives .and (ts ++ us) e
  | andEnd {left} : Derives (.andTail left) [] left
  | andMore {ts us left right e} : Derives .not ts right →
      Derives (.andTail (.conj left right)) us e →
      Derives (.andTail left) (['&'] :: ts ++ us) e
  | bang {ts e} : Derives .not ts e → Derives .not (['!'] :: ts) (.neg e)
  | operand {ts e} : Derives .value ts e → Derives .not ts e
  | paren {ts e} : Derives .or ts e → Derives .value (['('] :: ts ++ [[')']]) e
  | digits {numeral} : IsNumeral numeral → Derives .value [numeral] (.signal numeral)

/-- The expression of a phrase uses the numerals of its tokens, besides those of
the expression a tail phrase continues. -/
theorem Derives.written {p : Phrase} {ts : List Text} {e : Expr} (h : Derives p ts e) :
    (∀ left, p = .orTail left ∨ p = .andTail left → left.Written) → e.Written := by
  have join : ∀ {l r : Expr}, l.Written → r.Written →
      ∀ n ∈ l.numerals ++ r.numerals, IsNumeral n := by
    intro l r hl hr n hn
    cases List.mem_append.mp hn with
    | inl hn =>
        exact hl n hn
    | inr hn =>
        exact hr n hn
  induction h with
  | or _ _ ihl iht | and _ _ ihl iht =>
      intro _
      apply iht
      rintro left (heq | heq) <;> cases heq
      exact ihl (by simp)
  | orEnd => intro hleft; exact hleft _ (Or.inl rfl)
  | andEnd => intro hleft; exact hleft _ (Or.inr rfl)
  | orMore _ _ ihr iht =>
      intro hleft
      apply iht
      rintro left (heq | heq) <;> cases heq
      exact join (hleft _ (Or.inl rfl)) (ihr (by simp))
  | andMore _ _ ihr iht =>
      intro hleft
      apply iht
      rintro left (heq | heq) <;> cases heq
      exact join (hleft _ (Or.inr rfl)) (ihr (by simp))
  | bang _ ih | operand _ ih | paren _ ih => intro _; exact ih (by simp)
  | digits hnum => intro _; simpa [Expr.Written, Expr.numerals] using hnum

/-- The text writes the tokens down in order, with any white space before,
between and after them. -/
inductive Spaced : Text → List Text → Prop
  | finish {ws} : ws.all isspace = true → Spaced ws []
  | token {ws token text tokens} : ws.all isspace = true → Spaced text tokens →
      Spaced (ws ++ (token ++ text)) (token :: tokens)

def IsOperatorToken (token : Text) : Prop := ∃ c, token = [c] ∧ isOperator true c = true

theorem not_isspace_of_isOperator {c : Char} (h : isOperator true c = true) :
    isspace c = false ∧ isdigit c = false := by
  have hc : (((c = '(' ∨ c = ')') ∨ c = '|') ∨ c = '&') ∨ c = '!' := by
    simpa [isOperator] using h
  rcases hc with (((rfl | rfl) | rfl) | rfl) | rfl <;> decide

theorem not_isOperator_of_isdigit {c : Char} (h : isdigit c = true) :
    isOperator true c = false := by
  cases hop : isOperator true c with
  | false => rfl
  | true => simp [(not_isspace_of_isOperator hop).2] at h

theorem IsNumeral.not_operator {token : Text} (h : IsNumeral token) :
    ¬ IsOperatorToken token := by
  rintro ⟨c, rfl, hop⟩
  have hd : isdigit c = true := by simpa using h.2
  simp [(not_isspace_of_isOperator hop).2] at hd

/-- The tokens of a derivation are operators and numerals, and no two numerals
are neighbours: white space is never needed to keep them apart. -/
def Separable (tokens : List Text) : Prop :=
  (∀ token ∈ tokens, IsOperatorToken token ∨ IsNumeral token) ∧
    tokens.IsChain fun a b => IsOperatorToken a ∨ IsOperatorToken b

theorem isOperatorToken_of {c : Char} (h : isOperator true c = true) :
    IsOperatorToken [c] := ⟨c, rfl, h⟩

theorem Separable.append {ts us : List Text} (hts : Separable ts) (hus : Separable us)
    (hhead : ∀ token ∈ us.head?, IsOperatorToken token) : Separable (ts ++ us) := by
  refine ⟨?_, ?_⟩
  · intro token hm
    cases List.mem_append.mp hm with
    | inl hm =>
        exact hts.1 token hm
    | inr hm =>
        exact hus.1 token hm
  · refine List.isChain_append.mpr ⟨hts.2, hus.2, ?_⟩
    intro a _ b hb
    exact Or.inr (hhead b hb)

theorem Separable.cons {token : Text} {ts : List Text} (h : IsOperatorToken token)
    (hts : Separable ts) : Separable (token :: ts) := by
  refine ⟨?_, ?_⟩
  · intro t hm
    cases List.mem_cons.mp hm with
    | inl heq =>
        subst heq
        exact Or.inl h
    | inr hm =>
        exact hts.1 t hm
  · exact List.isChain_cons.mpr ⟨fun _ _ => Or.inl h, hts.2⟩

/-- A tail phrase is empty or begins with its operator. -/
theorem Derives.tail_head {p : Phrase} {ts : List Text} {e : Expr} (h : Derives p ts e) :
    match p with
    | .orTail _ => ts = [] ∨ ts.head? = some ['|']
    | .andTail _ => ts = [] ∨ ts.head? = some ['&']
    | _ => True := by
  cases h <;> simp

private theorem operator_head {ts : List Text} {c : Char} (hc : isOperator true c = true)
    (h : ts = [] ∨ ts.head? = some [c]) : ∀ token ∈ ts.head?, IsOperatorToken token := by
  cases h with
  | inl heq =>
      subst heq
      simp
  | inr hhead =>
      simpa [hhead] using isOperatorToken_of hc

theorem Derives.separable {p : Phrase} {ts : List Text} {e : Expr} (h : Derives p ts e) :
    Separable ts := by
  induction h with
  | or _ htail ihl iht | and _ htail ihl iht =>
      exact ihl.append iht (operator_head (by decide) htail.tail_head)
  | orEnd | andEnd => exact ⟨by simp, .nil⟩
  | orMore _ htail ihl iht | andMore _ htail ihl iht =>
      exact (ihl.cons (isOperatorToken_of (by decide))).append iht
        (operator_head (by decide) htail.tail_head)
  | bang _ ih => exact ih.cons (isOperatorToken_of (by decide))
  | operand _ ih => exact ih
  | paren _ ih =>
      have hclose : IsOperatorToken [')'] := isOperatorToken_of (by decide)
      refine (ih.cons (isOperatorToken_of (by decide))).append ⟨?_, .singleton _⟩ ?_
      · simpa using Or.inl hclose
      · simpa using hclose
  | digits hnum => exact ⟨by simpa using Or.inr hnum, .singleton _⟩

/-! The tokenizer recovers a separable token list from any text that writes it. -/

theorem tokenize_blank {bang : Bool} {line : Text} (h : line.dropWhile isspace = []) :
    tokenize bang line = .ok [] := by
  rw [tokenize]
  split
  · rfl
  · rename_i heq; simp [h] at heq

theorem tokenize_operator {bang : Bool} {line rest : Text} {c : Char}
    (h : line.dropWhile isspace = c :: rest) (hc : isOperator bang c = true) :
    tokenize bang line = (do return [c] :: (← tokenize bang rest)) := by
  rw [tokenize]
  split
  · rename_i heq; simp [h] at heq
  · rename_i heq
    rw [h, List.cons.injEq] at heq
    obtain ⟨rfl, rfl⟩ := heq
    simp [hc]

theorem tokenize_digit {bang : Bool} {line rest : Text} {c : Char}
    (h : line.dropWhile isspace = c :: rest) (hop : isOperator bang c = false)
    (hc : isdigit c = true) :
    tokenize bang line =
      (do return (c :: rest.takeWhile isdigit) ::
        (← tokenize bang (rest.dropWhile isdigit))) := by
  rw [tokenize]
  split
  · rename_i heq; simp [h] at heq
  · rename_i heq
    rw [h, List.cons.injEq] at heq
    obtain ⟨rfl, rfl⟩ := heq
    simp [hop, hc]

private theorem dropWhile_blank_append {ws text : Text} (hws : ws.all isspace = true) :
    (ws ++ text).dropWhile isspace = text.dropWhile isspace :=
  List.dropWhile_append_of_pos (by simpa using hws)

theorem Spaced.head_not_digit {text : Text} {tokens : List Text} (h : Spaced text tokens)
    (hop : ∀ token ∈ tokens.head?, IsOperatorToken token) :
    ∀ c ∈ text.head?, isdigit c = false := by
  have not_digit_of_isspace : ∀ c, isspace c = true → isdigit c = false := by
    intro c hs
    cases hd : isdigit c with
    | false => rfl
    | true => simp [not_isspace_of_isdigit hd] at hs
  cases h with
  | finish hws =>
      intro c hc
      exact not_digit_of_isspace c (by simp at hws; exact hws c (List.mem_of_mem_head? hc))
  | @token ws token text tokens hws _ =>
      obtain ⟨d, rfl, hd⟩ := hop token (by simp)
      intro c hc
      cases ws with
      | nil =>
          obtain rfl : d = c := by simpa using hc
          exact (not_isspace_of_isOperator hd).2
      | cons w ws =>
          obtain rfl : w = c := by simpa using hc
          exact not_digit_of_isspace w (by simp at hws; exact hws.1)

theorem tokenize_spaced {text : Text} {tokens : List Text} (h : Spaced text tokens)
    (sep : Separable tokens) : tokenize true text = .ok tokens := by
  induction h with
  | finish hws =>
      exact tokenize_blank (List.dropWhile_eq_nil_iff.mpr (by simpa using hws))
  | @token ws token text tokens hws spaced ih =>
      have htail := ih ⟨fun t hm => sep.1 t (by simp [hm]), sep.2.tail⟩
      rcases sep.1 token (by simp) with ⟨c, rfl, hc⟩ | hnum
      · have hdrop : (ws ++ ([c] ++ text)).dropWhile isspace = c :: text := by
          rw [dropWhile_blank_append hws]
          simp [(not_isspace_of_isOperator hc).1]
        rw [tokenize_operator hdrop hc, htail]
        rfl
      · obtain ⟨c, digits, rfl⟩ := List.exists_cons_of_ne_nil hnum.1
        have hall : isdigit c = true ∧ ∀ d ∈ digits, isdigit d = true := by
          simpa using hnum.2
        have hdrop : (ws ++ (c :: digits ++ text)).dropWhile isspace =
            c :: (digits ++ text) := by
          rw [dropWhile_blank_append hws]
          simp [not_isspace_of_isdigit hall.1]
        have hnext : ∀ t ∈ tokens.head?, IsOperatorToken t := by
          intro t ht
          have hrel := (List.isChain_cons.mp sep.2).1 t ht
          exact hrel.resolve_left hnum.not_operator
        have hstop := spaced.head_not_digit hnext
        have htake : (digits ++ text).takeWhile isdigit = digits := by
          rw [List.takeWhile_append_of_pos hall.2]
          cases text with
          | nil => simp
          | cons d text => simp [hstop d (by simp)]
        have hrest : (digits ++ text).dropWhile isdigit = text := by
          rw [List.dropWhile_append_of_pos hall.2]
          cases text with
          | nil => simp
          | cons d text => simp [hstop d (by simp)]
        rw [tokenize_digit hdrop (not_isOperator_of_isdigit hall.1) hall.1, htake, hrest, htail]
        rfl

end Userworks
