import Userworks.LogicFilter.InfixParsing

/-!
What the recursive-descent parser does with every token list. A run either reads
a phrase of the grammar, or throws, or runs out of tokens where an operand should
stand; in the last case `parse_value` returns the null pointer, and nothing above
it outside parentheses looks for that.
-/
namespace Userworks

/-- A tree whose operators have all their operands. -/
def Ast.Complete : Ast → Prop
  | .null => False
  | .node value left right =>
      if value = ['|'] ∨ value = ['&'] then left.Complete ∧ right.Complete
      else if value = ['!'] then left.Complete ∧ right = .null
      else IsNumeral value ∧ left = .null ∧ right = .null

/-- The tokens of the tokenizer. -/
def IsToken (token : Text) : Prop := IsOperatorToken token ∨ IsNumeral token

/-- A numeral, for the operand that is missing. -/
def missing : Text := ['0']

/-- Everything a call of a parser function can come to. -/
inductive Outcome (p : Phrase) (ts : List Text) : Except Fault (Ast × List Text) → Prop
  | read {used rest e} : ts = used ++ rest → Derives p used e → Outcome p ts (.ok (e.ast, rest))
  | starved {ast e} : ¬ ast.Complete → Derives p (ts ++ [missing]) e →
      Outcome p ts (.ok (ast, []))
  | thrown {what} : Outcome p ts (.error (.runtimeError what))

theorem isNumeral_missing : IsNumeral missing := ⟨by decide, rfl⟩

theorem IsNumeral.ne_operator {word : Text} (h : IsNumeral word) (c : Char)
    (hc : isOperator true c = true) : word ≠ [c] := by
  intro heq
  exact h.not_operator ⟨c, heq, hc⟩

theorem IsToken.numeral_of_head {token : Text} (h : IsToken token)
    (hdigit : (token.head?.map isdigit).getD false = true) : IsNumeral token := by
  cases h with
  | inl hop =>
      obtain ⟨c, heq, hc⟩ := hop
      subst heq
      exact absurd hdigit (by simp [(not_isspace_of_isOperator hc).2])
  | inr hnum => exact hnum

theorem Expr.complete_ast (e : Expr) (h : e.Written) : e.ast.Complete := by
  induction e with
  | signal numeral =>
      have hnum : IsNumeral numeral := h numeral (by simp [Expr.numerals])
      simp only [Expr.ast, Ast.Complete, hnum.ne_operator '|' (by decide),
        hnum.ne_operator '&' (by decide), hnum.ne_operator '!' (by decide), or_self, if_false,
        hnum, and_self]
  | neg e ih => exact ⟨ih h, rfl⟩
  | conj l r ihl ihr | disj l r ihl ihr =>
      exact ⟨ihl fun n hn => h n (List.mem_append_left _ hn),
        ihr fun n hn => h n (List.mem_append_right _ hn)⟩

namespace Outcome

variable {p q : Phrase} {ts us : List Text}

/-- A call whose result is worked on by the rest of the caller. -/
theorem bind {r : Except Fault (Ast × List Text)}
    {next : Ast × List Text → Except Fault (Ast × List Text)} (h : Outcome p ts r)
    (hread : ∀ used rest e, ts = used ++ rest → Derives p used e →
      Outcome q us (next (e.ast, rest)))
    (hstarved : ∀ ast e, ¬ ast.Complete → Derives p (ts ++ [missing]) e →
      Outcome q us (next (ast, []))) :
    Outcome q us (r >>= next) := by
  cases h with
  | read heq hderives => exact hread _ _ _ heq hderives
  | starved hopen hderives => exact hstarved _ _ hopen hderives
  | thrown => exact .thrown

/-- The last call of a phrase, after the tokens that are read already. -/
theorem after {r : Except Fault (Ast × List Text)} (before : List Text)
    (hphrase : ∀ used e, Derives q used e → Derives p (before ++ used) e)
    (h : Outcome q ts r) : Outcome p (before ++ ts) r := by
  cases h with
  | read heq hderives =>
      subst heq
      exact .read (List.append_assoc ..).symm (hphrase _ _ hderives)
  | starved hopen hderives =>
      have hwhole := hphrase _ _ hderives
      rw [← List.append_assoc] at hwhole
      exact .starved hopen hwhole
  | thrown => exact .thrown

end Outcome

theorem parseOrLoop_nil (fuel : Nat) (left : Ast) :
    parseOrLoop true (fuel + 1) left [] = .ok (left, []) :=
  parseOrLoop_stop fuel left [] (by simp)

theorem parseAndLoop_nil (fuel : Nat) (left : Ast) :
    parseAndLoop true (fuel + 1) left [] = .ok (left, []) :=
  parseAndLoop_stop fuel left [] (by simp)

/-- Every phrase, on every token list that the fuel is enough for. -/
def AllOutcomes (fuel : Nat) : Prop :=
  ∀ (p : Phrase) (ts : List Text), (∀ token ∈ ts, IsToken token) →
    4 * ts.length + p.depth ≤ fuel → Outcome p ts (p.parse fuel ts)

section Phrases

variable {fuel : Nat} (ih : AllOutcomes fuel) {ts : List Text}
  (htokens : ∀ token ∈ ts, IsToken token)

include ih htokens

/-- The call on the tokens that a first call has left. -/
theorem AllOutcomes.rest {used rest : List Text} (p : Phrase) (heq : ts = used ++ rest)
    (hfuel : 4 * ts.length + p.depth ≤ fuel) : Outcome p rest (p.parse fuel rest) := by
  subst heq
  rw [List.length_append] at hfuel
  exact ih p rest (fun token hm => htokens token (List.mem_append_right _ hm)) (by omega)

theorem parseOr_outcome (hfuel : 4 * ts.length + 4 ≤ fuel + 1) :
    Outcome .or ts (parseOr true (fuel + 1) ts) := by
  obtain ⟨fuel, rfl⟩ := Nat.exists_eq_add_of_lt (show 0 < fuel by omega)
  refine (ih .and ts htokens (by simp only [Phrase.depth]; omega)).bind ?_ ?_
  · intro used rest left heq hleft
    have hloop := ih.rest htokens (.orTail left) heq (by simp only [Phrase.depth]; omega)
    rw [heq]
    exact hloop.after used fun _ _ htail => .or hleft htail
  · intro left e hopen hleft
    have hwhole := Derives.or hleft .orEnd
    rw [List.append_nil] at hwhole
    dsimp only
    rw [parseOrLoop_nil]
    exact .starved hopen hwhole

theorem parseAnd_outcome (hfuel : 4 * ts.length + 3 ≤ fuel + 1) :
    Outcome .and ts (parseAnd true (fuel + 1) ts) := by
  obtain ⟨fuel, rfl⟩ := Nat.exists_eq_add_of_lt (show 0 < fuel by omega)
  refine (ih .not ts htokens (by simp only [Phrase.depth]; omega)).bind ?_ ?_
  · intro used rest left heq hleft
    have hloop := ih.rest htokens (.andTail left) heq (by simp only [Phrase.depth]; omega)
    rw [heq]
    exact hloop.after used fun _ _ htail => .and hleft htail
  · intro left e hopen hleft
    have hwhole := Derives.and hleft .andEnd
    rw [List.append_nil] at hwhole
    dsimp only
    rw [parseAndLoop_nil]
    exact .starved hopen hwhole

theorem parseOrLoop_outcome (left : Expr) (hfuel : 4 * (ts.length + 1) + 1 ≤ fuel + 1) :
    Outcome (.orTail left) (['|'] :: ts) (parseOrLoop true (fuel + 1) left.ast (['|'] :: ts)) := by
  obtain ⟨fuel, rfl⟩ := Nat.exists_eq_add_of_lt (show 0 < fuel by omega)
  rw [parseOrLoop_bar]
  refine (ih .and ts htokens (by simp only [Phrase.depth]; omega)).bind ?_ ?_
  · intro used rest right heq hright
    have hloop := ih.rest htokens (.orTail (.disj left right)) heq
      (by simp only [Phrase.depth]; omega)
    rw [heq]
    exact hloop.after (['|'] :: used) fun _ _ htail => .orMore hright htail
  · intro right e hopen hright
    have hwhole := @Derives.orMore _ _ left _ _ hright .orEnd
    rw [List.append_nil] at hwhole
    dsimp only
    rw [parseOrLoop_nil]
    exact .starved (fun hcomplete => hopen hcomplete.2) hwhole

theorem parseAndLoop_outcome (left : Expr) (hfuel : 4 * (ts.length + 1) + 1 ≤ fuel + 1) :
    Outcome (.andTail left) (['&'] :: ts)
      (parseAndLoop true (fuel + 1) left.ast (['&'] :: ts)) := by
  obtain ⟨fuel, rfl⟩ := Nat.exists_eq_add_of_lt (show 0 < fuel by omega)
  rw [parseAndLoop_amp]
  refine (ih .not ts htokens (by simp only [Phrase.depth]; omega)).bind ?_ ?_
  · intro used rest right heq hright
    have hloop := ih.rest htokens (.andTail (.conj left right)) heq
      (by simp only [Phrase.depth]; omega)
    rw [heq]
    exact hloop.after (['&'] :: used) fun _ _ htail => .andMore hright htail
  · intro right e hopen hright
    have hwhole := @Derives.andMore _ _ left _ _ hright .andEnd
    rw [List.append_nil] at hwhole
    dsimp only
    rw [parseAndLoop_nil]
    exact .starved (fun hcomplete => hopen hcomplete.2) hwhole

theorem parseNot_outcome (hfuel : 4 * ts.length + 2 ≤ fuel + 1) :
    Outcome .not ts (parseNot true (fuel + 1) ts) := by
  rw [parseNot]
  by_cases hbang : ts.head? = some ['!']
  · obtain ⟨us, rfl⟩ := List.head?_eq_some_iff.mp hbang
    rw [if_pos (by simp), List.tail_cons]
    rw [List.length_cons] at hfuel
    refine (ih .not us (fun token hm => htokens token (List.mem_cons_of_mem _ hm))
      (by simp only [Phrase.depth]; omega)).bind ?_ ?_
    · intro used rest e heq hoperand
      subst heq
      exact .read (List.cons_append ..).symm (.bang hoperand)
    · intro operand e hopen hoperand
      exact .starved (fun hcomplete => hopen hcomplete.1) (.bang hoperand)
  · rw [if_neg (by simpa using hbang)]
    exact (ih .value ts htokens (by simp only [Phrase.depth]; omega)).after []
      fun _ _ hvalue => .operand hvalue

theorem parseValue_outcome (hfuel : 4 * ts.length + 1 ≤ fuel + 1) :
    Outcome .value ts (parseValue true (fuel + 1) ts) := by
  cases ts with
  | nil => exact .starved id (.digits isNumeral_missing)
  | cons token ts =>
      rw [List.length_cons] at hfuel
      rw [parseValue]
      by_cases hparen : token = ['(']
      · rw [if_pos hparen]
        refine (ih .or ts (fun token hm => htokens token (List.mem_cons_of_mem _ hm))
          (by simp only [Phrase.depth]; omega)).bind ?_ ?_
        · intro used rest e heq hinner
          subst heq hparen
          by_cases hclose : rest.head? = some [')']
          · obtain ⟨rest, rfl⟩ := List.head?_eq_some_iff.mp hclose
            exact .read (by simp) (.paren hinner)
          · dsimp only
            rw [if_neg hclose]
            exact .thrown
        · intro node e _ _
          exact .thrown
      · rw [if_neg hparen]
        split
        case isTrue hdigit =>
          have hnum := (htokens token (List.mem_cons_self ..)).numeral_of_head hdigit
          exact .read rfl (.digits hnum)
        case isFalse => exact .thrown

end Phrases

theorem allOutcomes (fuel : Nat) : AllOutcomes fuel := by
  induction fuel with
  | zero =>
      intro p ts _ hfuel
      cases p <;> (simp only [Phrase.depth] at hfuel; omega)
  | succ fuel ih =>
      intro p ts htokens hfuel
      cases p with
      | or => exact parseOr_outcome ih htokens hfuel
      | and => exact parseAnd_outcome ih htokens hfuel
      | not => exact parseNot_outcome ih htokens hfuel
      | value => exact parseValue_outcome ih htokens hfuel
      | orTail left =>
          by_cases hbar : ts.head? = some ['|']
          · obtain ⟨ts, rfl⟩ := List.head?_eq_some_iff.mp hbar
            exact parseOrLoop_outcome ih
              (fun token hm => htokens token (List.mem_cons_of_mem _ hm)) left hfuel
          · rw [Phrase.parse, parseOrLoop_stop fuel left.ast ts hbar]
            exact .read rfl .orEnd
      | andTail left =>
          by_cases hamp : ts.head? = some ['&']
          · obtain ⟨ts, rfl⟩ := List.head?_eq_some_iff.mp hamp
            exact parseAndLoop_outcome ih
              (fun token hm => htokens token (List.mem_cons_of_mem _ hm)) left hfuel
          · rw [Phrase.parse, parseAndLoop_stop fuel left.ast ts hamp]
            exact .read rfl .andEnd

/-- A list of two parts that ends in a given token: either the second part is empty
or the token ends the second part. -/
theorem append_eq_concat {us vs ts : List Text} {token : Text}
    (h : us ++ vs = ts ++ [token]) :
    (vs = [] ∧ us = ts ++ [token]) ∨ ∃ ws, vs = ws ++ [token] ∧ ts = us ++ ws := by
  cases vs.eq_nil_or_concat with
  | inl hnil =>
      subst hnil
      exact Or.inl ⟨rfl, by simpa using h⟩
  | inr hconcat =>
      obtain ⟨ws, last, heq⟩ := hconcat
      subst heq
      rw [List.concat_eq_append, ← List.append_assoc] at h
      obtain ⟨hts, hlast⟩ := List.append_inj' h rfl
      rw [List.concat_eq_append, hlast]
      exact Or.inr ⟨ws, rfl, hts.symm⟩

theorem cons_eq_concat {token last : Text} {us ts : List Text} (hne : token ≠ last)
    (h : token :: us = ts ++ [last]) : ∃ ws, ts = token :: ws ∧ us = ws ++ [last] := by
  cases ts with
  | nil => exact absurd (List.cons.inj h).1 hne
  | cons head ws =>
      obtain ⟨rfl, htail⟩ := List.cons.inj h
      exact ⟨ws, rfl, htail⟩

/-- A tail that is not empty keeps its operator when its last token is taken away. -/
theorem Derives.tail_stops {left : Expr} {ws : List Text} {e : Expr}
    (h : Derives (.orTail left) (ws ++ [missing]) e) : ws.head? ≠ some ['&'] := by
  intro hamp
  cases h.tail_head with
  | inl hnil => simp at hnil
  | inr hbar =>
      rw [List.head?_append_of_ne_nil _ (by intro hnil; simp [hnil] at hamp), hamp] at hbar
      exact absurd hbar (by decide)

/-- Where one more numeral would complete a phrase the parser takes all tokens and
returns a tree that lacks an operand. -/
def Starved (p : Phrase) (us : List Text) : Prop :=
  ∀ ts fuel, us = ts ++ [missing] → 4 * ts.length + p.depth ≤ fuel →
    ∃ ast, p.parse fuel ts = .ok (ast, []) ∧ ¬ ast.Complete

section Starved

variable {us vs : List Text} {left right e : Expr}

theorem starved_or (hleft : Derives .and us left) (htail : Derives (.orTail left) vs e)
    (ihl : Starved .and us) (iht : Starved (.orTail left) vs) : Starved .or (us ++ vs) := by
  intro ts fuel heq hfuel
  simp only [Phrase.depth] at hfuel
  obtain ⟨fuel, rfl⟩ := Nat.exists_eq_add_of_lt (show 1 < fuel by omega)
  cases append_eq_concat heq with
  | inl hends =>
      obtain ⟨ast, hparse, hopen⟩ :=
        ihl ts (1 + fuel) hends.2 (by simp only [Phrase.depth]; omega)
      refine ⟨ast, ?_, hopen⟩
      simp only [Phrase.parse] at hparse ⊢
      rw [parseOr, hparse, Nat.add_comm 1 fuel]
      exact parseOrLoop_nil fuel ast
  | inr hsplit =>
      obtain ⟨ws, rfl, rfl⟩ := hsplit
      rw [List.length_append] at hfuel
      have hread := hleft.parse ws (1 + fuel) (by simp only [Phrase.depth]; omega)
        htail.tail_stops
      obtain ⟨ast, hparse, hopen⟩ := iht ws (1 + fuel) rfl (by simp only [Phrase.depth]; omega)
      refine ⟨ast, ?_, hopen⟩
      simp only [Phrase.parse] at hread hparse ⊢
      rw [parseOr, hread]
      exact hparse

theorem starved_orMore (hright : Derives .and us right)
    (htail : Derives (.orTail (.disj left right)) vs e) (ihr : Starved .and us)
    (iht : Starved (.orTail (.disj left right)) vs) :
    Starved (.orTail left) (['|'] :: us ++ vs) := by
  intro ts fuel heq hfuel
  simp only [Phrase.depth] at hfuel
  obtain ⟨fuel, rfl⟩ := Nat.exists_eq_add_of_lt (show 0 < fuel by omega)
  cases append_eq_concat heq with
  | inl hends =>
      obtain ⟨ws, rfl, hws⟩ := cons_eq_concat (by decide) hends.2
      rw [List.length_cons] at hfuel
      obtain ⟨fuel, rfl⟩ := Nat.exists_eq_add_of_lt (show 0 < fuel by omega)
      obtain ⟨ast, hparse, hopen⟩ :=
        ihr ws (0 + (0 + fuel + 1)) hws (by simp only [Phrase.depth]; omega)
      refine ⟨.node ['|'] left.ast ast, ?_, fun hcomplete => hopen hcomplete.2⟩
      simp only [Phrase.parse] at hparse ⊢
      rw [parseOrLoop_bar, hparse, ← Nat.add_assoc]
      exact parseOrLoop_nil _ _
  | inr hsplit =>
      obtain ⟨ws, rfl, rfl⟩ := hsplit
      rw [List.length_append, List.length_cons] at hfuel
      have hread := hright.parse ws (0 + fuel) (by simp only [Phrase.depth]; omega)
        htail.tail_stops
      obtain ⟨ast, hparse, hopen⟩ := iht ws (0 + fuel) rfl (by simp only [Phrase.depth]; omega)
      refine ⟨ast, ?_, hopen⟩
      simp only [Phrase.parse] at hread hparse ⊢
      rw [List.cons_append, parseOrLoop_bar, hread]
      exact hparse

theorem starved_and (hleft : Derives .not us left) (ihl : Starved .not us)
    (iht : Starved (.andTail left) vs) : Starved .and (us ++ vs) := by
  intro ts fuel heq hfuel
  simp only [Phrase.depth] at hfuel
  obtain ⟨fuel, rfl⟩ := Nat.exists_eq_add_of_lt (show 1 < fuel by omega)
  cases append_eq_concat heq with
  | inl hends =>
      obtain ⟨ast, hparse, hopen⟩ :=
        ihl ts (1 + fuel) hends.2 (by simp only [Phrase.depth]; omega)
      refine ⟨ast, ?_, hopen⟩
      simp only [Phrase.parse] at hparse ⊢
      rw [parseAnd, hparse, Nat.add_comm 1 fuel]
      exact parseAndLoop_nil fuel ast
  | inr hsplit =>
      obtain ⟨ws, rfl, rfl⟩ := hsplit
      rw [List.length_append] at hfuel
      have hread := hleft.parse ws (1 + fuel) (by simp only [Phrase.depth]; omega) trivial
      obtain ⟨ast, hparse, hopen⟩ := iht ws (1 + fuel) rfl (by simp only [Phrase.depth]; omega)
      refine ⟨ast, ?_, hopen⟩
      simp only [Phrase.parse] at hread hparse ⊢
      rw [parseAnd, hread]
      exact hparse

theorem starved_andMore (hright : Derives .not us right) (ihr : Starved .not us)
    (iht : Starved (.andTail (.conj left right)) vs) :
    Starved (.andTail left) (['&'] :: us ++ vs) := by
  intro ts fuel heq hfuel
  simp only [Phrase.depth] at hfuel
  obtain ⟨fuel, rfl⟩ := Nat.exists_eq_add_of_lt (show 0 < fuel by omega)
  cases append_eq_concat heq with
  | inl hends =>
      obtain ⟨ws, rfl, hws⟩ := cons_eq_concat (by decide) hends.2
      rw [List.length_cons] at hfuel
      obtain ⟨fuel, rfl⟩ := Nat.exists_eq_add_of_lt (show 0 < fuel by omega)
      obtain ⟨ast, hparse, hopen⟩ :=
        ihr ws (0 + (0 + fuel + 1)) hws (by simp only [Phrase.depth]; omega)
      refine ⟨.node ['&'] left.ast ast, ?_, fun hcomplete => hopen hcomplete.2⟩
      simp only [Phrase.parse] at hparse ⊢
      rw [parseAndLoop_amp, hparse, ← Nat.add_assoc]
      exact parseAndLoop_nil _ _
  | inr hsplit =>
      obtain ⟨ws, rfl, rfl⟩ := hsplit
      rw [List.length_append, List.length_cons] at hfuel
      have hread := hright.parse ws (0 + fuel) (by simp only [Phrase.depth]; omega) trivial
      obtain ⟨ast, hparse, hopen⟩ := iht ws (0 + fuel) rfl (by simp only [Phrase.depth]; omega)
      refine ⟨ast, ?_, hopen⟩
      simp only [Phrase.parse] at hread hparse ⊢
      rw [List.cons_append, parseAndLoop_amp, hread]
      exact hparse

theorem starved_bang (ih : Starved .not us) : Starved .not (['!'] :: us) := by
  intro ts fuel heq hfuel
  simp only [Phrase.depth] at hfuel
  obtain ⟨fuel, rfl⟩ := Nat.exists_eq_add_of_lt (show 0 < fuel by omega)
  obtain ⟨ws, rfl, hws⟩ := cons_eq_concat (by decide) heq
  rw [List.length_cons] at hfuel
  obtain ⟨ast, hparse, hopen⟩ := ih ws (0 + fuel) hws (by simp only [Phrase.depth]; omega)
  refine ⟨.node ['!'] ast .null, ?_, fun hcomplete => hopen hcomplete.1⟩
  simp only [Phrase.parse] at hparse ⊢
  rw [parseNot, if_pos (by simp), List.tail_cons, hparse]
  rfl

theorem starved_operand (hvalue : Derives .value us e) (ih : Starved .value us) :
    Starved .not us := by
  intro ts fuel heq hfuel
  simp only [Phrase.depth] at hfuel
  obtain ⟨fuel, rfl⟩ := Nat.exists_eq_add_of_lt (show 0 < fuel by omega)
  obtain ⟨ast, hparse, hopen⟩ := ih ts (0 + fuel) heq (by simp only [Phrase.depth]; omega)
  refine ⟨ast, ?_, hopen⟩
  have hbang : ts.head? ≠ some ['!'] := by
    intro hbang
    apply hvalue.value_head.2
    rw [heq, List.head?_append, hbang]
    rfl
  simp only [Phrase.parse] at hparse ⊢
  rw [parseNot, if_neg (by simpa using hbang)]
  exact hparse

theorem starved_digits (numeral : Text) : Starved .value [numeral] := by
  intro ts fuel heq hfuel
  simp only [Phrase.depth] at hfuel
  obtain ⟨fuel, rfl⟩ := Nat.exists_eq_add_of_lt (show 0 < fuel by omega)
  cases ts with
  | nil => exact ⟨.null, rfl, id⟩
  | cons token ts => simp at heq

end Starved

theorem Derives.starved {p : Phrase} {us : List Text} {e : Expr} (h : Derives p us e) :
    Starved p us := by
  induction h with
  | or hleft htail ihl iht => exact starved_or hleft htail ihl iht
  | orEnd =>
      intro ts fuel heq
      simp at heq
  | orMore hright htail ihr iht => exact starved_orMore hright htail ihr iht
  | and hleft htail ihl iht => exact starved_and hleft ihl iht
  | andEnd =>
      intro ts fuel heq
      simp at heq
  | andMore hright htail ihr iht => exact starved_andMore hright ihr iht
  | bang hoperand ih => exact starved_bang ih
  | operand hvalue ih => exact starved_operand hvalue ih
  | paren hinner ih =>
      intro ts fuel heq
      exact absurd (List.append_inj' heq rfl).2 (by decide)
  | digits hnum => exact starved_digits _

theorem tokenize_invalid {line rest : Text} {c : Char} (h : line.dropWhile isspace = c :: rest)
    (hop : ¬ isOperator true c = true) (hdigit : ¬ isdigit c = true) :
    tokenize true line = .error (.runtimeError ("invalid char: ".toList ++ [c])) := by
  rw [tokenize]
  split
  · rename_i heq
    simp [h] at heq
  · rename_i heq
    rw [h, List.cons.injEq] at heq
    obtain ⟨rfl, rfl⟩ := heq
    rw [if_neg hop, if_neg hdigit]

theorem tokenize_cons {token : Text} {rest : Except Fault (List Text)} {tokens : List Text}
    (h : (do return token :: (← rest)) = (.ok tokens : Except Fault (List Text))) :
    ∃ more, rest = .ok more ∧ tokens = token :: more := by
  cases rest with
  | error fault => cases h
  | ok more => exact ⟨more, rfl, (Except.ok.inj h).symm⟩

/-- The tokenizer makes operators and numerals only. -/
theorem tokenize_tokens (line : Text) (tokens : List Text)
    (h : tokenize true line = .ok tokens) : ∀ token ∈ tokens, IsToken token := by
  induction line using tokenize.induct true generalizing tokens with
  | case1 line hblank =>
      rw [tokenize_blank hblank] at h
      cases h
      simp
  | case2 line c rest hline hop ih =>
      rw [tokenize_operator hline hop] at h
      obtain ⟨more, hmore, rfl⟩ := tokenize_cons h
      rw [List.forall_mem_cons]
      exact ⟨Or.inl (isOperatorToken_of hop), ih more hmore⟩
  | case3 line c rest hline hop hdigit ih =>
      rw [tokenize_digit hline (by simpa using hop) hdigit] at h
      obtain ⟨more, hmore, rfl⟩ := tokenize_cons h
      rw [List.forall_mem_cons]
      refine ⟨Or.inr ⟨by simp, ?_⟩, ih more hmore⟩
      rw [List.all_cons, hdigit, Bool.true_and]
      exact List.all_eq_true.mpr fun d hd => List.mem_takeWhile_imp hd
  | case4 line c rest hline hop hdigit =>
      rw [tokenize_invalid hline hop hdigit] at h
      cases h

/-- Tokens written with a blank after each of them are read back, so that every list
of operators and numerals reaches the parser. -/
theorem tokenize_blanks (tokens : List Text) (h : ∀ token ∈ tokens, IsToken token) :
    tokenize true (tokens.flatMap (· ++ [' '])) = .ok tokens := by
  induction tokens with
  | nil => exact tokenize_blank rfl
  | cons token tokens ih =>
      rw [List.forall_mem_cons] at h
      have hskip : tokenize true (' ' :: tokens.flatMap (· ++ [' '])) = .ok tokens := by
        rw [← ih h.2, tokenize.eq_def, tokenize.eq_def]
        rfl
      rw [List.flatMap_cons, List.append_assoc, List.singleton_append]
      cases h.1 with
      | inl hop =>
          obtain ⟨c, rfl, hc⟩ := hop
          rw [tokenize_operator (c := c) _ hc, hskip]
          · rfl
          · simp [(not_isspace_of_isOperator hc).1]
      | inr hnum =>
          obtain ⟨c, digits, rfl⟩ := List.exists_cons_of_ne_nil hnum.1
          have hall : isdigit c = true ∧ ∀ d ∈ digits, isdigit d = true := by
            simpa using hnum.2
          have hblank : ¬ isdigit ' ' = true := by decide
          rw [tokenize_digit (c := c) _ (not_isOperator_of_isdigit hall.1) hall.1,
            List.takeWhile_append_of_pos hall.2, List.dropWhile_append_of_pos hall.2,
            List.takeWhile_cons_of_neg hblank, List.dropWhile_cons_of_neg hblank,
            List.append_nil, hskip]
          · rfl
          · simp [not_isspace_of_isdigit hall.1]

section Calls

variable {text : Text} {tokens : List Text} (h : tokenize true text = .ok tokens)

include h

theorem infixtorpn_of_starved {e : Expr} (starved : Derives .or (tokens ++ [missing]) e) :
    ∃ ast, infixtorpn text = .ok ast ∧ ¬ ast.Complete := by
  obtain ⟨ast, hparse, hopen⟩ := starved.starved tokens (4 * tokens.length + 4) rfl
    (by simp [Phrase.depth])
  refine ⟨ast, ?_, hopen⟩
  simp only [Phrase.parse] at hparse
  rw [infixtorpn, infixToRpn, h]
  simp only [bind, Except.bind, hparse]
  rfl

theorem infixtorpn_otherwise (hnot : ¬ ∃ e, Derives .or tokens e)
    (hfed : ¬ ∃ e, Derives .or (tokens ++ [missing]) e) :
    ∃ what, infixtorpn text = .error (.runtimeError what) := by
  have hall := allOutcomes (4 * tokens.length + 4) .or tokens (tokenize_tokens text tokens h)
    (by simp [Phrase.depth])
  rw [infixtorpn, infixToRpn, h]
  simp only [Phrase.parse] at hall
  change ∃ what, (parseOr true (4 * tokens.length + 4) tokens >>= _) = _
  generalize parseOr true (4 * tokens.length + 4) tokens = r at hall ⊢
  cases hall with
  | @read used rest e heq hderives =>
      cases rest with
      | nil =>
          rw [List.append_nil] at heq
          subst heq
          exact absurd ⟨e, hderives⟩ hnot
      | cons token rest => exact ⟨_, rfl⟩
  | starved hopen hderives => exact absurd ⟨_, hderives⟩ hfed
  | thrown => exact ⟨_, rfl⟩

end Calls

/-- For every text of any tokens: the compiler keeps to the grammar exactly when the
tokens are not a formula that only lacks its last operand. -/
theorem infixtorpn_acceptsExactly_iff {text : Text} {tokens : List Text}
    (h : tokenize true text = .ok tokens) :
    (((∃ e, Derives .or tokens e) → ∃ ast, infixtorpn text = .ok ast ∧ ast.Complete) ∧
      ((¬ ∃ e, Derives .or tokens e) →
        ∃ what, infixtorpn text = .error (.runtimeError what))) ↔
      ¬ ∃ e, Derives .or (tokens ++ [missing]) e := by
  constructor
  · intro hkeeps hstarved
    obtain ⟨e, hstarved⟩ := hstarved
    obtain ⟨ast, hcall, hopen⟩ := infixtorpn_of_starved h hstarved
    by_cases hderives : ∃ e, Derives .or tokens e
    · obtain ⟨ast', hcall', hcomplete⟩ := hkeeps.1 hderives
      rw [hcall] at hcall'
      cases hcall'
      exact hopen hcomplete
    · obtain ⟨what, hthrow⟩ := hkeeps.2 hderives
      rw [hcall] at hthrow
      cases hthrow
  · intro hfed
    refine ⟨?_, fun hnot => infixtorpn_otherwise h hnot hfed⟩
    intro hderives
    obtain ⟨e, hderives⟩ := hderives
    exact ⟨e.ast, infixtorpn_of_derives h hderives, e.complete_ast (hderives.written (by simp))⟩

/-- A formula with an operand that is missing inside parentheses, which the compiler
does notice. -/
theorem infixtorpn_acceptsExactly_iff_open_paren :
    (((∃ e, Derives .or [['1'], ['&'], ['(']] e) →
          ∃ ast, infixtorpn "1 & ( ".toList = .ok ast ∧ ast.Complete) ∧
        ((¬ ∃ e, Derives .or [['1'], ['&'], ['(']] e) →
          ∃ what, infixtorpn "1 & ( ".toList = .error (.runtimeError what))) ↔
      ¬ ∃ e, Derives .or ([['1'], ['&'], ['(']] ++ [missing]) e :=
  infixtorpn_acceptsExactly_iff (tokenize_blanks [['1'], ['&'], ['(']] (by
    simp only [List.forall_mem_cons, List.not_mem_nil, false_implies, implies_true, and_true]
    exact ⟨Or.inr ⟨by decide, rfl⟩, Or.inl ⟨_, rfl, by decide⟩, Or.inl ⟨_, rfl, by decide⟩⟩))

/-- The formula `1 |` is not derivable, and is compiled to a disjunction with one
operand. -/
theorem operand_missing_at_end :
    (¬ ∃ e, Derives .or [['1'], ['|']] e) ∧
      infixtorpn "1 | ".toList =
        .ok (.node ['|'] (.node ['1'] .null .null) .null) := by
  have htokens : tokenize true "1 | ".toList = .ok [['1'], ['|']] :=
    tokenize_blanks [['1'], ['|']] (by
      simp only [List.forall_mem_cons, List.not_mem_nil, false_implies, implies_true, and_true]
      exact ⟨Or.inr ⟨by decide, rfl⟩, Or.inl ⟨_, rfl, by decide⟩⟩)
  have hcall : infixtorpn "1 | ".toList =
      .ok (.node ['|'] (.node ['1'] .null .null) .null) := by
    rw [infixtorpn, infixToRpn, htokens]
    rfl
  refine ⟨?_, hcall⟩
  intro hderives
  obtain ⟨e, hderives⟩ := hderives
  have htree := (infixtorpn_of_derives htokens hderives).symm.trans hcall
  have hcomplete := e.complete_ast (hderives.written (by simp))
  rw [Except.ok.inj htree] at hcomplete
  exact hcomplete.2

end Userworks
