import Userworks.LogicFilter.Numerals

/-!
Signal lists as they are written: groups of numbers in parentheses, and runs of
groups in one more pair of parentheses.

The group under way is forgotten at an opening parenthesis only. The parenthesis
that closes a run therefore finds the last group of the run again, and appends it
once more.
-/
namespace Userworks
namespace SignalParser

/-- A word between blanks and parentheses. -/
def IsWord (word : Text) : Prop := word ≠ [] ∧ '(' ∉ word ∧ ')' ∉ word ∧ ' ' ∉ word

/-- What may stand behind a word: nothing, or what ends it. -/
def EndsWord : Text → Prop
  | [] => True
  | c :: _ => c = '(' ∨ c = ')' ∨ c = ' '

/-- The texts of a list of words and parentheses, with any blanks around them. -/
inductive Writes : List Text → Text → Prop where
  | nil : Writes [] []
  | blank {words : List Text} {text : Text} : Writes words text → Writes words (' ' :: text)
  | bra {words : List Text} {text : Text} :
      Writes words text → Writes (['('] :: words) ('(' :: text)
  | ket {words : List Text} {text : Text} :
      Writes words text → Writes ([')'] :: words) (')' :: text)
  | word {word : Text} {words : List Text} {text : Text} :
      IsWord word → EndsWord text → Writes words text → Writes (word :: words) (word ++ text)

theorem foldl_word {word : Text} (words : List Text) (before : Text)
    (h : '(' ∉ word ∧ ')' ∉ word ∧ ' ' ∉ word) :
    word.foldl bksplitStep (words, before) = (words, before ++ word) := by
  induction word generalizing before with
  | nil => rw [List.foldl_nil, List.append_nil]
  | cons c word ih =>
      simp only [List.mem_cons, not_or] at h
      rw [List.foldl_cons, bksplitStep, if_neg (not_or.mpr ⟨Ne.symm h.1.1, Ne.symm h.2.1.1⟩),
        if_neg (Ne.symm h.2.2.1), ih _ ⟨h.1.2, h.2.1.2, h.2.2.2⟩, List.append_assoc,
        List.singleton_append]

/-- What ends a word also closes it. -/
theorem foldl_endsWord {word text : Text} (words : List Text) (hne : word ≠ [])
    (h : EndsWord text) :
    closeWord (text.foldl bksplitStep (words, word)).1 (text.foldl bksplitStep (words, word)).2 =
      closeWord (text.foldl bksplitStep (words ++ [word], [])).1
        (text.foldl bksplitStep (words ++ [word], [])).2 := by
  have hclose : closeWord words word = words ++ [word] := by
    rw [closeWord, if_neg (by simpa using hne)]
  cases text with
  | nil => exact hclose
  | cons c text =>
      have hstep : bksplitStep (words, word) c = bksplitStep (words ++ [word], []) c := by
        have hc : c = '(' ∨ c = ')' ∨ c = ' ' := h
        simp only [bksplitStep, hclose]
        by_cases hparen : c = '(' ∨ c = ')'
        · rw [if_pos hparen, if_pos hparen]
          rfl
        · have hblank : c = ' ' := by
            cases hc with
            | inl h => exact absurd (Or.inl h) hparen
            | inr hc => exact hc.resolve_left fun h => hparen (Or.inr h)
          rw [if_neg hparen, if_neg hparen, if_pos hblank, if_pos hblank]
          rfl
      rw [List.foldl_cons, hstep, List.foldl_cons]

theorem foldl_writes {words : List Text} {text : Text} (h : Writes words text)
    (before : List Text) :
    closeWord (text.foldl bksplitStep (before, [])).1 (text.foldl bksplitStep (before, [])).2 =
      before ++ words := by
  induction h generalizing before with
  | nil => exact (List.append_nil before).symm
  | blank _ ih => exact ih before
  | bra _ ih => exact (ih (before ++ [['(']])).trans (by simp)
  | ket _ ih => exact (ih (before ++ [[')']])).trans (by simp)
  | @word word words text hword hend _ ih =>
      rw [List.foldl_append, foldl_word before [] hword.2, List.nil_append,
        foldl_endsWord before hword.1 hend, ih, List.append_assoc, List.singleton_append]

/-- The words of a text are split as they were written. -/
theorem bksplit_writes {words : List Text} {text : Text} (h : Writes words text) :
    bksplit text = words :=
  foldl_writes h []

/-- A word that is a number of 32 bits, or the negative of one. -/
inductive WritesNumber : Text → BitVec 32 → Prop where
  | pos {word : Text} {n : Nat} : Numeral word n → n < 2 ^ 32 →
      WritesNumber word (BitVec.ofNat 32 n)
  | neg {word : Text} {n : Nat} : Numeral word n → n ≤ 2 ^ 31 →
      WritesNumber ('-' :: word) (BitVec.ofInt 32 (-n))

theorem digitValue_of_not_isWord {c : Char} {base : Nat} (h : c = '(' ∨ c = ')' ∨ c = ' ') :
    digitValue base c = none := by
  have hvalue : digitValue base c = if base < base then some base else none := by
    rcases h with rfl | rfl | rfl <;> rfl
  rw [hvalue, if_neg (Nat.lt_irrefl base)]

theorem not_mem_digits {digits : Text} {base n : Nat} (h : Digits base digits n) {c : Char}
    (hc : c = '(' ∨ c = ')' ∨ c = ' ') : c ∉ digits := by
  intro hmem
  obtain ⟨d, hd⟩ := h.exists_value hmem
  rw [digitValue_of_not_isWord hc] at hd
  cases hd

theorem Numeral.not_mem {word : Text} {n : Nat} (h : Numeral word n) {c : Char}
    (hc : c = '(' ∨ c = ')' ∨ c = ' ') : c ∉ word := by
  cases h with
  | hex hdigits =>
      have hdig := not_mem_digits hdigits hc
      simp only [List.mem_cons, not_or]
      refine ⟨?_, ?_, hdig⟩
      · rcases hc with rfl | rfl | rfl <;> decide
      · rcases hc with rfl | rfl | rfl <;> decide
  | decimal hdigits _ => exact not_mem_digits hdigits hc
  | zero => rcases hc with rfl | rfl | rfl <;> decide

theorem WritesNumber.isWord {word : Text} {x : BitVec 32} (h : WritesNumber word x) :
    IsWord word := by
  cases h with
  | pos hnum _ =>
      obtain ⟨c, rest, heq, _⟩ := hnum.head
      exact ⟨by simp [heq], Numeral.not_mem hnum (by decide), Numeral.not_mem hnum (by decide),
        Numeral.not_mem hnum (by decide)⟩
  | neg hnum _ =>
      have hnot := fun c hc => Numeral.not_mem hnum (c := c) hc
      exact ⟨by simp, by simp [hnot '(' (by decide)], by simp [hnot ')' (by decide)],
        by simp [hnot ' ' (by decide)]⟩

/-- A number comes back as it was written, a negative one in two's complement. -/
theorem WritesNumber.stoul {word : Text} {x : BitVec 32} (h : WritesNumber word x) :
    ∃ ulval, Userworks.stoul word = some ulval ∧ BitVec.ofNat 32 ulval = x := by
  cases h with
  | pos hnum hlt => exact ⟨_, stoul_numeral hnum (by omega), rfl⟩
  | @neg word n hnum hle =>
      refine ⟨_, stoul_neg_numeral hnum (by omega), ?_⟩
      apply BitVec.eq_of_toNat_eq
      rw [BitVec.toNat_ofNat, BitVec.toNat_ofInt]
      omega

/-- A number together with the word that writes it. -/
structure Number where
  word : Text
  value : BitVec 32
  writes : WritesNumber word value

structure Group where
  numbers : List Number
  ne_nil : numbers ≠ []

/-- What a signal list is made of: a group, or a run of groups in parentheses. -/
inductive Item where
  | group (g : Group)
  | run (groups : List Group)

def Group.words (g : Group) : List Text := ['('] :: (g.numbers.map (·.word) ++ [[')']])

def Group.values (g : Group) : List (BitVec 32) := g.numbers.map (·.value)

def Item.words : Item → List Text
  | group g => g.words
  | run groups => ['('] :: (groups.flatMap (·.words) ++ [[')']])

def Item.groups : Item → List Group
  | group g => [g]
  | run groups => groups

/-- The groups that `Parsing` makes of an item. -/
def Item.read (item : Item) : List (List (BitVec 32)) :=
  match item with
  | group g => [g.values]
  | run groups => groups.map (·.values) ++ (groups.map (·.values)).getLast?.toList

theorem Group.length_values_pos (g : Group) : 0 < g.values.length := by
  rw [Group.values, List.length_map]
  exact List.length_pos_iff.mpr g.ne_nil

theorem parsingStep_number (signals : List (List (BitVec 32))) (low : List (BitVec 32))
    (number : Number) :
    parsingStep (signals, low) number.word = (signals, low ++ [number.value]) := by
  have hword := number.writes.isWord
  obtain ⟨ulval, hstoul, hvalue⟩ := number.writes.stoul
  have hbra : number.word ≠ ['('] :=
    fun h => hword.2.1 (by rw [h]; exact List.mem_singleton_self _)
  have hket : number.word ≠ [')'] :=
    fun h => hword.2.2.1 (by rw [h]; exact List.mem_singleton_self _)
  rw [parsingStep, if_neg hbra, if_neg hket, hstoul, ← hvalue]

theorem foldl_numbers (signals : List (List (BitVec 32))) (low : List (BitVec 32))
    (numbers : List Number) :
    (numbers.map (·.word)).foldl parsingStep (signals, low) =
      (signals, low ++ numbers.map (·.value)) := by
  induction numbers generalizing low with
  | nil => rw [List.map_nil, List.map_nil, List.foldl_nil, List.append_nil]
  | cons number numbers ih =>
      rw [List.map_cons, List.foldl_cons, parsingStep_number, ih, List.map_cons, List.append_assoc,
        List.singleton_append]

/-- The closing parenthesis leaves the group where it is. -/
theorem foldl_group (signals : List (List (BitVec 32))) (low : List (BitVec 32)) (g : Group) :
    g.words.foldl parsingStep (signals, low) = (signals ++ [g.values], g.values) := by
  have hbra : parsingStep (signals, low) ['('] = (signals, []) := rfl
  have hket : parsingStep (signals, g.values) [')'] = (signals ++ [g.values], g.values) := by
    change (if g.values.length > 0 then signals ++ [g.values] else signals, g.values) = _
    rw [if_pos g.length_values_pos]
  rw [Group.words, List.foldl_cons, hbra, List.foldl_append, foldl_numbers, List.nil_append]
  exact hket

theorem foldl_groups (signals : List (List (BitVec 32))) (low : List (BitVec 32))
    (groups : List Group) :
    (groups.flatMap (·.words)).foldl parsingStep (signals, low) =
      (signals ++ groups.map (·.values), ((groups.map (·.values)).getLast?).getD low) := by
  induction groups generalizing signals low with
  | nil => rw [List.flatMap_nil, List.foldl_nil, List.map_nil, List.append_nil]; rfl
  | cons g groups ih =>
      rw [List.flatMap_cons, List.foldl_append, foldl_group, ih, List.map_cons, List.append_assoc,
        List.singleton_append, List.getLast?_cons]
      rfl

/-- An item starts with a parenthesis, so the group before it does not matter. -/
theorem foldl_item (signals : List (List (BitVec 32))) (low : List (BitVec 32)) (item : Item) :
    (item.words.foldl parsingStep (signals, low)).1 = signals ++ item.read := by
  cases item with
  | group g => exact congrArg Prod.fst (foldl_group signals low g)
  | run groups =>
      have hbra : parsingStep (signals, low) ['('] = (signals, []) := rfl
      rw [Item.words, List.foldl_cons, hbra, List.foldl_append, foldl_groups, Item.read,
        ← List.append_assoc]
      cases hlast : (groups.map (·.values)).getLast? with
      | none => exact (List.append_nil _).symm
      | some values =>
          have hmem := List.mem_of_mem_getLast? hlast
          obtain ⟨g, -, hg⟩ := List.mem_map.mp hmem
          have hlen : values.length > 0 := hg ▸ g.length_values_pos
          exact if_pos hlen

theorem foldl_items (signals : List (List (BitVec 32))) (low : List (BitVec 32))
    (items : List Item) :
    ((items.flatMap (·.words)).foldl parsingStep (signals, low)).1 =
      signals ++ items.flatMap (·.read) := by
  induction items generalizing signals low with
  | nil => rw [List.flatMap_nil, List.foldl_nil, List.flatMap_nil, List.append_nil]
  | cons item items ih =>
      rw [List.flatMap_cons, List.foldl_append, List.flatMap_cons, ← List.append_assoc,
        ← foldl_item signals low item]
      exact ih _ _

theorem parsing_items {items : List Item} {text : Text}
    (h : Writes (items.flatMap (·.words)) text) :
    parsing text = items.flatMap (·.read) := by
  rw [parsing, bksplit_writes h, foldl_items, List.nil_append]

/-- No group is lost. -/
theorem length_groups_le (items : List Item) :
    (items.flatMap (·.groups)).length ≤ (items.flatMap (·.read)).length := by
  induction items with
  | nil => exact Nat.le_refl _
  | cons item items ih =>
      have hitem : item.groups.length ≤ item.read.length := by
        cases item with
        | group g => exact Nat.le_refl _
        | run groups => simp [Item.groups, Item.read]
      rw [List.flatMap_cons, List.flatMap_cons, List.length_append, List.length_append]
      exact Nat.add_le_add hitem ih

theorem flatMap_read_eq_iff (items : List Item) :
    items.flatMap (·.read) = (items.flatMap (·.groups)).map (·.values) ↔
      ∀ groups, .run groups ∈ items → groups = [] := by
  induction items with
  | nil => exact ⟨fun _ groups h => (List.not_mem_nil h).elim, fun _ => rfl⟩
  | cons item items ih =>
      rw [List.flatMap_cons, List.flatMap_cons, List.map_append]
      cases item with
      | group g =>
          have hread : (Item.group g).read = (Item.group g).groups.map (·.values) := rfl
          rw [hread, List.append_cancel_left_eq, ih]
          simp
      | run groups =>
          cases groups with
          | nil =>
              refine Iff.trans ih ⟨fun h groups hmem => ?_, fun h groups hmem => ?_⟩
              · cases List.mem_cons.mp hmem with
                | inl heq => exact Item.run.inj heq
                | inr hmem => exact h groups hmem
              · exact h groups (List.mem_cons_of_mem _ hmem)
          | cons g groups =>
              refine ⟨fun heq => ?_, fun h => nomatch h (g :: groups) (List.mem_cons_self ..)⟩
              have hlen := congrArg List.length heq
              have hle := length_groups_le items
              simp [Item.read, Item.groups, List.getLast?_cons] at hlen hle
              omega

/-- The groups come back as they are written exactly when no group is enclosed in
another pair of parentheses. -/
theorem parsing_eq_groups_iff (items : List Item) (text : Text)
    (h : Writes (items.flatMap (·.words)) text) :
    parsing text = (items.flatMap (·.groups)).map (·.values) ↔
      ∀ groups, .run groups ∈ items → groups = [] := by
  rw [parsing_items h, flatMap_read_eq_iff]

theorem parsing_eq_groups_iff_run :
    ∃ items : List Item, Writes (items.flatMap (·.words)) "((1 -2)) ( 1)".toList ∧
      (parsing "((1 -2)) ( 1)".toList = (items.flatMap (·.groups)).map (·.values) ↔
        ∀ groups, .run groups ∈ items → groups = []) := by
  have hone : WritesNumber ['1'] 1 :=
    .pos (.decimal ⟨[1], by decide, by decide, by decide⟩ (by decide)) (by decide)
  have htwo : Numeral ['2'] 2 := .decimal ⟨[2], by decide, by decide, by decide⟩ (by decide)
  have hminus : WritesNumber ['-', '2'] 0xfffffffe := .neg htwo (by decide)
  have hwrites : Writes [['('], ['('], ['1'], ['-', '2'], [')'], [')'], ['('], ['1'], [')']]
      ['(', '(', '1', ' ', '-', '2', ')', ')', ' ', '(', ' ', '1', ')'] :=
    .bra (.bra (.word hone.isWord (.inr (.inr rfl)) (.blank (.word hminus.isWord (.inr (.inl rfl))
      (.ket (.ket (.blank (.bra (.blank (.word hone.isWord (.inr (.inl rfl)) (.ket .nil)))))))))))
  exact ⟨[.run [⟨[⟨_, _, hone⟩, ⟨_, _, hminus⟩], by simp⟩], .group ⟨[⟨_, _, hone⟩], by simp⟩],
    hwrites, parsing_eq_groups_iff _ _ hwrites⟩

/-- The group at the end of a run appears twice and shifts those behind it. -/
theorem parsing_run_duplicates :
    parsing "((1 2) (3 4)) (5 -6)".toList ≠ [[1, 2], [3, 4], [5, 0xfffffffa]] := by
  decide

end SignalParser
end Userworks
