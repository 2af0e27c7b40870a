import Userworks.LogicFilter.Numerals

/-!
Numbers with the prefix of their base. `getBase` guesses the base from the first
two characters and the length, and `stoi` hands the whole text, prefix included,
to `std::stoull`, which knows the prefix of base 16 only and leaves aside what
follows the digits.
-/
namespace Userworks.E16

/-- What `Stoi` throws: its own error, or one of `std::stoull`. -/
inductive StoiException where
  | runtimeError (what : Text)
  | invalidArgument
  | outOfRange
  deriving DecidableEq

/-- The value of the leading digits of a text. -/
def leadingValue (base : Nat) (word : Text) : Nat :=
  (leadingDigits base word).foldl (fun n d => base * n + d) 0

/-- Base 16 allows a prefix, in front of a digit. -/
def skipPrefix (base : Nat) : Text → Text
  | '0' :: x :: rest =>
      if base = 16 ∧ (x = 'x' ∨ x = 'X') ∧ leadingDigits 16 rest ≠ [] then rest
      else '0' :: x :: rest
  | rest => rest

/-- `std::stoull(word, nullptr, base)` with a 64-bit `unsigned long long`. -/
def stoull (base : Nat) (word : Text) : Except StoiException Nat :=
  let (negative, rest) := numberSign (word.dropWhile isspace)
  let rest := skipPrefix base rest
  if leadingDigits base rest = [] then .error .invalidArgument
  else if 2 ^ 64 ≤ leadingValue base rest then .error .outOfRange
  else .ok (if negative then (2 ^ 64 - leadingValue base rest) % 2 ^ 64 else leadingValue base rest)

/-- `arg.data()` read as a C string: the text up to its terminating zero. -/
def data (arg : Text) : Text := arg.takeWhile (· ≠ '\x00')

/-- The base that the prefix names, 0 if it names none. -/
def prefixBase : Text → Nat
  | '0' :: c :: _ :: _ =>
      if c = 'b' ∨ c = 'B' then 2
      else if c = 'x' ∨ c = 'X' then 16
      else 8
  | _ => 0

def getBase (arg : Text) : Nat :=
  if prefixBase arg = 0 ∧ arg.all isdigit = true then 10 else prefixBase arg

def stoi (arg : Text) : Except StoiException Nat :=
  if getBase arg = 0 then
    .error (.runtimeError ("e16daq::Stoi() arg is not digit: ".toList ++ data arg))
  else stoull (getBase arg) (data arg)

/-- What stands behind the prefix. -/
def body (arg : Text) : Text :=
  match getBase arg with
  | 2 | 16 => arg.drop 2
  | 8 => arg.drop 1
  | _ => arg

/-- The texts of a number that are to be understood. -/
inductive PrefixedNumeral : Text → Nat → Prop where
  | decimal {word : Text} {n : Nat} : Digits 10 word n →
      (word.head? = some '0' → word.length = 1) → PrefixedNumeral word n
  | hex {x : Char} {word : Text} {n : Nat} : x = 'x' ∨ x = 'X' → Digits 16 word n →
      PrefixedNumeral ('0' :: x :: word) n
  | octal {word : Text} {n : Nat} : Digits 8 word n → 2 ≤ word.length →
      PrefixedNumeral ('0' :: word) n
  | binary {b : Char} {word : Text} {n : Nat} : b = 'b' ∨ b = 'B' → Digits 2 word n →
      PrefixedNumeral ('0' :: b :: word) n

/-- A character behind the prefix that is no digit of the selected base. -/
def Foreign (arg : Text) : Prop := ∃ c ∈ body arg, digitValue (getBase arg) c = none

theorem data_cons {c : Char} (hc : c ≠ '\x00') (word : Text) : data (c :: word) = c :: data word :=
  List.takeWhile_cons_of_pos (by simpa using hc)

theorem leadingDigits_data (base : Nat) (word : Text) :
    leadingDigits base (data word) = leadingDigits base word := by
  induction word with
  | nil => rfl
  | cons c word ih =>
      by_cases hc : c = '\x00'
      · have hzero : digitValue base '\x00' = none := if_neg (Nat.lt_irrefl base)
        rw [hc, leadingDigits, hzero]
        rfl
      · rw [data_cons hc, leadingDigits, leadingDigits, ih]

theorem leadingValue_data (base : Nat) (word : Text) :
    leadingValue base (data word) = leadingValue base word := by
  rw [leadingValue, leadingDigits_data, leadingValue]

/-- A number without sign or blanks in front. -/
theorem stoull_of_isdigit {base : Nat} {c : Char} {rest : Text} (hc : isdigit c = true) :
    stoull base (c :: rest) =
      if leadingDigits base (skipPrefix base (c :: rest)) = [] then .error .invalidArgument
      else if 2 ^ 64 ≤ leadingValue base (skipPrefix base (c :: rest)) then .error .outOfRange
      else .ok (leadingValue base (skipPrefix base (c :: rest))) := by
  have hspace := List.dropWhile_cons_of_neg (p := isspace) (l := rest)
    (Bool.eq_false_iff.mp (not_isspace_of_isdigit hc))
  simp only [stoull, hspace, numberSign_of_isdigit hc, Bool.false_eq_true, if_false]

/-- The value of the leading digits, as far as it is one of 64 bits. -/
def ranged (value : Nat) : Except StoiException Nat :=
  if 2 ^ 64 ≤ value then .error .outOfRange else .ok value

theorem digits_iff (base : Nat) (word : Text) (n : Nat) :
    Digits base word n ↔
      word ≠ [] ∧ (∀ c ∈ word, digitValue base c ≠ none) ∧ leadingValue base word = n := by
  constructor
  · intro h
    obtain ⟨ds, hne, _, _⟩ := id h
    refine ⟨hne, ?_, h.value⟩
    intro c hc hnone
    obtain ⟨d, hd⟩ := h.exists_value hc
    rw [hd] at hnone
    cases hnone
  · rintro ⟨hne, hall, hvalue⟩
    have hmap : word.map (digitValue base) = (leadingDigits base word).map some := by
      clear hne hvalue
      induction word with
      | nil => rfl
      | cons c word ih =>
          have htail := ih fun d hd => hall d (List.mem_cons_of_mem c hd)
          obtain ⟨d, hd⟩ := Option.ne_none_iff_exists'.mp (hall c (List.mem_cons_self ..))
          rw [List.map_cons, leadingDigits, hd, htail]
          rfl
    refine ⟨leadingDigits base word, hne, hmap, ?_⟩
    rw [← foldl_eq_ofDigits]
    exact hvalue

/-- A text with its base and what stands behind the prefix. -/
inductive Shape : Text → Nat → Text → Prop where
  | binary {b : Char} {word : Text} : b = 'b' ∨ b = 'B' → word ≠ [] →
      Shape ('0' :: b :: word) 2 word
  | hex {x : Char} {word : Text} : x = 'x' ∨ x = 'X' → word ≠ [] → Shape ('0' :: x :: word) 16 word
  | octal {c : Char} {word : Text} : ¬(c = 'b' ∨ c = 'B') → ¬(c = 'x' ∨ c = 'X') → word ≠ [] →
      Shape ('0' :: c :: word) 8 (c :: word)
  | decimal {arg : Text} : arg.all isdigit = true → Shape arg 10 arg
  | unknown {arg : Text} : arg.all isdigit ≠ true → Shape arg 0 arg

theorem getBase_of_prefix {arg : Text} {base : Nat} (h : prefixBase arg = base) (hne : base ≠ 0) :
    getBase arg = base := by
  rw [getBase, h, if_neg fun hzero => hne hzero.1]

theorem shape (arg : Text) : Shape arg (getBase arg) (body arg) := by
  have hof : ∀ base, prefixBase arg = base → base ≠ 0 → getBase arg = base :=
    fun _ => getBase_of_prefix
  rw [prefixBase.eq_def] at hof
  unfold body
  split at hof
  · rename_i b c word
    split at hof
    · rename_i hb
      rw [hof 2 rfl (by decide)]
      exact .binary hb (List.cons_ne_nil c word)
    · rename_i hb
      split at hof
      · rename_i hx
        rw [hof 16 rfl (by decide)]
        exact .hex hx (List.cons_ne_nil c word)
      · rename_i hx
        rw [hof 8 rfl (by decide)]
        exact .octal hb hx (List.cons_ne_nil c word)
  · rename_i hshort
    have hzero : prefixBase arg = 0 := by
      rw [prefixBase.eq_def]
      split
      · rename_i b c word
        exact absurd rfl (hshort b c word)
      · rfl
    rw [getBase, hzero]
    by_cases hall : arg.all isdigit = true
    · rw [if_pos ⟨rfl, hall⟩]
      exact .decimal hall
    · rw [if_neg fun h => hall h.2]
      exact .unknown hall

theorem skipPrefix_of_ne {base : Nat} (hbase : base ≠ 16) (word : Text) :
    skipPrefix base word = word := by
  unfold skipPrefix
  split
  · rw [if_neg fun h => hbase h.1]
  · rfl

/-- A first digit makes the conversion one of its leading digits. -/
theorem stoull_of_digit {base : Nat} {c : Char} {rest : Text} (hbase : base ≠ 16)
    (hc : isdigit c = true) (hd : digitValue base c ≠ none) :
    stoull base (c :: rest) = ranged (leadingValue base (c :: rest)) := by
  obtain ⟨d, hd⟩ := Option.ne_none_iff_exists'.mp hd
  have hne : leadingDigits base (c :: rest) ≠ [] := by
    rw [leadingDigits, hd]
    exact List.cons_ne_nil d _
  rw [stoull_of_isdigit hc, skipPrefix_of_ne hbase, if_neg hne]
  rfl

/-- A leading zero adds nothing. -/
theorem leadingValue_zero {base : Nat} (hbase : 0 < base) (word : Text) :
    leadingValue base ('0' :: word) = leadingValue base word := by
  have hzero : digitValue base '0' = some 0 := if_pos hbase
  rw [leadingValue, leadingDigits, hzero, List.foldl_cons]
  rfl

/-- The prefix of base 2 is where the number ends. -/
theorem stoull_binary {b : Char} (hb : b = 'b' ∨ b = 'B') (word : Text) :
    stoull 2 (data ('0' :: b :: word)) = .ok 0 := by
  have hzero : b ≠ '\x00' := by rcases hb with rfl | rfl <;> decide
  have hdigit : digitValue 2 b = none := by rcases hb with rfl | rfl <;> rfl
  have hvalue : leadingValue 2 (b :: data word) = 0 := by
    rw [leadingValue, leadingDigits, hdigit]
    rfl
  rw [data_cons (by decide), data_cons hzero, stoull_of_digit (by decide) (by decide) (by decide),
    leadingValue_zero (by decide), hvalue]
  rfl

theorem stoull_octal (word : Text) :
    stoull 8 (data ('0' :: word)) = ranged (leadingValue 8 word) := by
  rw [data_cons (by decide), stoull_of_digit (by decide) (by decide) (by decide),
    leadingValue_zero (by decide), leadingValue_data]

/-- Without a digit behind it the prefix is a zero with an `x` behind it. -/
theorem stoull_hex {x : Char} (hx : x = 'x' ∨ x = 'X') (word : Text) :
    stoull 16 (data ('0' :: x :: word)) = ranged (leadingValue 16 word) := by
  have hzero : x ≠ '\x00' := by rcases hx with rfl | rfl <;> decide
  have hdigit : digitValue 16 x = none := by rcases hx with rfl | rfl <;> rfl
  rw [data_cons (by decide), data_cons hzero, stoull_of_isdigit (by decide)]
  by_cases hne : leadingDigits 16 (data word) = []
  · have hskip : skipPrefix 16 ('0' :: x :: data word) = '0' :: x :: data word :=
      if_neg fun h => h.2.2 hne
    have hnoBase : leadingDigits 16 ('0' :: x :: data word) = [0] := by
      rw [leadingDigits, leadingDigits, hdigit]
      rfl
    have hvalue : leadingValue 16 word = 0 := by
      rw [← leadingValue_data, leadingValue, hne]
      rfl
    rw [hskip, leadingValue, hnoBase, hvalue]
    rfl
  · have hskip : skipPrefix 16 ('0' :: x :: data word) = data word := if_pos ⟨rfl, hx, hne⟩
    rw [hskip, if_neg hne, leadingValue_data]
    rfl

theorem isdigit_digitValue {c : Char} (h : isdigit c = true) : digitValue 10 c ≠ none := by
  have hc : 48 ≤ c.toNat ∧ c.toNat ≤ 57 := by
    have := h
    simp only [isdigit, Char.isDigit, Bool.and_eq_true, decide_eq_true_eq] at this
    exact this
  rw [digitValue, if_pos h]
  have hlt : c.toNat - '0'.toNat < 10 := by
    show c.toNat - 48 < 10
    omega
  rw [if_pos hlt]
  exact Option.some_ne_none _

theorem stoull_decimal {c : Char} {word : Text} (hc : isdigit c = true) :
    stoull 10 (data (c :: word)) = ranged (leadingValue 10 (c :: word)) := by
  have hzero : c ≠ '\x00' := by
    rintro rfl
    exact absurd hc (by decide)
  rw [data_cons hzero, stoull_of_digit (by decide) hc (isdigit_digitValue hc), ← data_cons hzero,
    leadingValue_data]

theorem Shape.stoi_binary {arg word : Text} (h : Shape arg 2 word) (hbase : getBase arg = 2) :
    stoi arg = .ok 0 := by
  rw [stoi, hbase, if_neg (by decide)]
  cases h with
  | binary hb _ => exact stoull_binary hb word

theorem Shape.stoi_ranged {arg word : Text} {base : Nat} (h : Shape arg base word)
    (hbase : getBase arg = base) (hpower : base = 8 ∨ base = 16) :
    stoi arg = ranged (leadingValue base word) := by
  rw [stoi, hbase, if_neg (by omega)]
  cases h with
  | octal _ _ _ => exact stoull_octal _
  | hex hx _ => exact stoull_hex hx word
  | binary _ _ | decimal _ | unknown _ => omega

theorem Shape.of_binary {arg word : Text} (h : Shape arg 2 word) :
    word ≠ [] ∧ ∃ b, (b = 'b' ∨ b = 'B') ∧ arg = '0' :: b :: word := by
  cases h with
  | binary hb hne => exact ⟨hne, _, hb, rfl⟩

theorem Shape.of_decimal {arg word : Text} (h : Shape arg 10 word) :
    word = arg ∧ ∀ c ∈ arg, isdigit c = true := by
  cases h with
  | decimal hall => exact ⟨rfl, List.all_eq_true.mp hall⟩

/-- The base that is guessed for a numeral is its own. -/
theorem PrefixedNumeral.digits {arg : Text} {n : Nat} (h : PrefixedNumeral arg n) :
    getBase arg ≠ 0 ∧ Digits (getBase arg) (body arg) n := by
  cases h with
  | @decimal _ _ hdigits hhead =>
      obtain ⟨hne, hall, -⟩ := (digits_iff 10 arg n).mp hdigits
      have hnoBase : prefixBase arg = 0 := by
        rw [prefixBase.eq_def]
        split
        · have hlength := hhead rfl
          simp at hlength
        · rfl
      have hbase : getBase arg = 10 := by
        refine if_pos ⟨hnoBase, List.all_eq_true.mpr ?_⟩
        intro c hc
        obtain ⟨d, hd⟩ := Option.ne_none_iff_exists'.mp (hall c hc)
        exact isdigit_of_decimal hd
      have hbody : body arg = arg := by
        unfold body
        rw [hbase]
        rfl
      rw [hbase, hbody]
      exact ⟨by decide, hdigits⟩
  | @hex x word _ hx hdigits =>
      have hbase : getBase ('0' :: x :: word) = 16 := by
        obtain ⟨c, rest, rfl⟩ := List.exists_cons_of_ne_nil ((digits_iff 16 word n).mp hdigits).1
        apply getBase_of_prefix _ (by decide)
        rcases hx with rfl | rfl <;> rfl
      have hbody : body ('0' :: x :: word) = word := by
        unfold body
        rw [hbase]
        rfl
      rw [hbase, hbody]
      exact ⟨by decide, hdigits⟩
  | @octal word _ hdigits hlength =>
      have hbase : getBase ('0' :: word) = 8 := by
        obtain ⟨-, hall, -⟩ := (digits_iff 8 word n).mp hdigits
        match word, hlength with
        | c :: d :: rest, _ =>
            have hc := hall c (List.mem_cons_self ..)
            have hb : ¬(c = 'b' ∨ c = 'B') := by rintro (rfl | rfl) <;> exact hc rfl
            have hx : ¬(c = 'x' ∨ c = 'X') := by rintro (rfl | rfl) <;> exact hc rfl
            apply getBase_of_prefix _ (by decide)
            rw [prefixBase, if_neg hb, if_neg hx]
      have hbody : body ('0' :: word) = word := by
        unfold body
        rw [hbase]
        rfl
      rw [hbase, hbody]
      exact ⟨by decide, hdigits⟩
  | @binary b word _ hb hdigits =>
      have hbase : getBase ('0' :: b :: word) = 2 := by
        obtain ⟨c, rest, rfl⟩ := List.exists_cons_of_ne_nil ((digits_iff 2 word n).mp hdigits).1
        apply getBase_of_prefix _ (by decide)
        rw [prefixBase, if_pos hb]
      have hbody : body ('0' :: b :: word) = word := by
        unfold body
        rw [hbase]
        rfl
      rw [hbase, hbody]
      exact ⟨by decide, hdigits⟩

/-- What `stoi` makes of a text, by the base that was guessed. -/
theorem stoi_binary {arg : Text} (h : getBase arg = 2) : stoi arg = .ok 0 := by
  have hs := shape arg
  rw [h] at hs
  exact hs.stoi_binary h

theorem stoi_ranged {arg : Text} (h : getBase arg = 8 ∨ getBase arg = 16) :
    stoi arg = ranged (leadingValue (getBase arg) (body arg)) :=
  (shape arg).stoi_ranged rfl h

/-- A text of decimal digits; none of its characters is foreign. -/
theorem stoi_decimal {arg : Text} (h : getBase arg = 10) :
    body arg = arg ∧ (arg ≠ [] → stoi arg = ranged (leadingValue 10 arg)) ∧
      ∀ c ∈ arg, digitValue 10 c ≠ none := by
  have hs := shape arg
  rw [h] at hs
  obtain ⟨hbody, hdigit⟩ := hs.of_decimal
  refine ⟨hbody, ?_, fun c hc => isdigit_digitValue (hdigit c hc)⟩
  intro hne
  obtain ⟨c, rest, rfl⟩ := List.exists_cons_of_ne_nil hne
  rw [stoi, h, if_neg (by decide)]
  exact stoull_decimal (hdigit c (List.mem_cons_self ..))

theorem getBase_cases (arg : Text) :
    getBase arg = 0 ∨ getBase arg = 2 ∨ (getBase arg = 8 ∨ getBase arg = 16) ∨
      getBase arg = 10 := by
  have hs := shape arg
  generalize getBase arg = base at hs
  generalize body arg = word at hs
  cases hs <;> simp

/-- What is asked of `stoi` on one text: a numeral below `2 ^ 64` is understood,
and a foreign character is refused. -/
def Understood (arg : Text) : Prop :=
  (∀ n < 2 ^ 64, PrefixedNumeral arg n → stoi arg = .ok n) ∧
    (Foreign arg → ∃ e, stoi arg = .error e)

/-- The texts on which the prefix of base 2 and what follows the digits do no
harm. -/
def Harmless (arg : Text) : Prop :=
  (getBase arg = 2 → ¬Foreign arg ∧
      (leadingValue 2 (body arg) = 0 ∨ 2 ^ 64 ≤ leadingValue 2 (body arg))) ∧
    (getBase arg = 8 ∨ getBase arg = 16 →
      Foreign arg → 2 ^ 64 ≤ leadingValue (getBase arg) (body arg))

theorem ranged_of_lt {value : Nat} (h : value < 2 ^ 64) : ranged value = .ok value :=
  if_neg (Nat.not_le.mpr h)

theorem understood_binary {arg : Text} (h : getBase arg = 2) :
    Understood arg ↔ ¬Foreign arg ∧
      (leadingValue 2 (body arg) = 0 ∨ 2 ^ 64 ≤ leadingValue 2 (body arg)) := by
  have hstoi := stoi_binary h
  constructor
  · rintro ⟨hnumeral, hforeign⟩
    have hnot : ¬Foreign arg := by
      intro hf
      obtain ⟨e, he⟩ := hforeign hf
      rw [hstoi] at he
      cases he
    refine ⟨hnot, ?_⟩
    by_cases hlt : leadingValue 2 (body arg) < 2 ^ 64
    · left
      have hs := shape arg
      rw [h] at hs
      obtain ⟨hne, b, hb, harg⟩ := hs.of_binary
      have hall : ∀ c ∈ body arg, digitValue 2 c ≠ none := by
        intro c hc hnone
        exact hnot ⟨c, hc, h.symm ▸ hnone⟩
      have hdigits := (digits_iff 2 (body arg) _).mpr ⟨hne, hall, rfl⟩
      have hnum := PrefixedNumeral.binary hb hdigits
      rw [← harg] at hnum
      have hread := hnumeral _ hlt hnum
      rw [hstoi] at hread
      exact (Except.ok.inj hread).symm
    · exact Or.inr (Nat.not_lt.mp hlt)
  · rintro ⟨hnot, hvalue⟩
    refine ⟨?_, fun hf => (hnot hf).elim⟩
    intro n hn hnumeral
    obtain ⟨-, hdigits⟩ := hnumeral.digits
    obtain ⟨-, -, hn'⟩ := (digits_iff _ _ n).mp hdigits
    rw [h] at hn'
    have hzero : n = 0 := by omega
    rw [hstoi, hzero]

theorem understood_ranged {arg : Text} (h : getBase arg = 8 ∨ getBase arg = 16) :
    Understood arg ↔ (Foreign arg → 2 ^ 64 ≤ leadingValue (getBase arg) (body arg)) := by
  have hstoi := stoi_ranged h
  constructor
  · rintro ⟨-, hforeign⟩ hf
    by_cases hlt : leadingValue (getBase arg) (body arg) < 2 ^ 64
    · obtain ⟨e, he⟩ := hforeign hf
      rw [hstoi, ranged_of_lt hlt] at he
      cases he
    · exact Nat.not_lt.mp hlt
  · intro hvalue
    constructor
    · intro n hn hnumeral
      obtain ⟨-, -, hn'⟩ := (digits_iff _ _ n).mp hnumeral.digits.2
      rw [hstoi, hn', ranged_of_lt hn]
    · intro hf
      refine ⟨.outOfRange, ?_⟩
      rw [hstoi]
      exact if_pos (hvalue hf)

theorem understood_decimal {arg : Text} (h : getBase arg = 10) : Understood arg := by
  obtain ⟨hbody, hstoi, hall⟩ := stoi_decimal h
  constructor
  · intro n hn hnumeral
    obtain ⟨hne, -, hn'⟩ := (digits_iff _ _ n).mp hnumeral.digits.2
    rw [hbody] at hne
    rw [h, hbody] at hn'
    rw [hstoi hne, hn', ranged_of_lt hn]
  · rintro ⟨c, hc, hnone⟩
    rw [hbody] at hc
    rw [h] at hnone
    exact (hall c hc hnone).elim

theorem understood_unknown {arg : Text} (h : getBase arg = 0) : Understood arg := by
  constructor
  · intro n _ hnumeral
    exact (hnumeral.digits.1 h).elim
  · intro _
    rw [stoi, if_pos h]
    exact ⟨_, rfl⟩

/-- The digits of a number in a base up to 16 denote it. -/
theorem digits_toDigits {base : Nat} (hbase : 1 < base) (hle : base ≤ 16) (n : Nat) :
    Digits base (Nat.toDigits base n) n := by
  have hdigit : ∀ b < 17, ∀ d < b, digitValue b (Nat.digitChar d) = some d := by decide
  induction n using Nat.strongRecOn with
  | ind n ih =>
      by_cases hn : n < base
      · refine ⟨[n], ?_, ?_, ?_⟩
        · rw [Nat.toDigits_of_lt_base hn]
          exact List.cons_ne_nil _ _
        · rw [Nat.toDigits_of_lt_base hn, List.map_singleton, hdigit base (by omega) n hn]
          rfl
        · exact Nat.ofDigits_singleton
      · obtain ⟨ds, _, hds, hvalue⟩ := ih (n / base) (Nat.div_lt_self (by omega) hbase)
        have hlt := Nat.mod_lt n (Nat.lt_trans Nat.zero_lt_one hbase)
        have htext := Nat.toDigits_of_base_le hbase (Nat.not_lt.mp hn)
        refine ⟨ds ++ [n % base], ?_, ?_, ?_⟩
        · rw [htext]
          exact List.append_ne_nil_of_right_ne_nil _ (List.cons_ne_nil _ _)
        · rw [htext, List.map_append, hds, List.map_append, List.map_singleton,
            hdigit base (by omega) _ hlt]
          rfl
        · rw [List.reverse_append, List.reverse_singleton, List.singleton_append,
            Nat.ofDigits_cons, hvalue]
          exact Nat.mod_add_div n base

theorem head_toDigits_zero {n : Nat} (h : (Nat.toDigits 10 n).head? = some '0') : n = 0 := by
  induction n using Nat.strongRecOn with
  | ind n ih =>
      by_cases hn : n < 10
      · have hchar : ∀ d < 10, Nat.digitChar d = '0' → d = 0 := by decide
        rw [Nat.toDigits_of_lt_base hn, List.head?_cons, Option.some.injEq] at h
        exact hchar n hn h
      · rw [Nat.toDigits_of_base_le (by decide) (Nat.not_lt.mp hn),
          List.head?_append_of_ne_nil _ Nat.toDigits_ne_nil] at h
        have hzero := ih (n / 10) (Nat.div_lt_self (by omega) (by decide)) h
        omega

/-- The text of a number in its base, with the prefix, is one of the numerals. -/
theorem prefixedNumeral_toDigits (n : Nat) :
    PrefixedNumeral (Nat.toDigits 10 n) n ∧
      (∀ x, x = 'x' ∨ x = 'X' → PrefixedNumeral ('0' :: x :: Nat.toDigits 16 n) n) ∧
      (2 ≤ (Nat.toDigits 8 n).length → PrefixedNumeral ('0' :: Nat.toDigits 8 n) n) ∧
      ∀ b, b = 'b' ∨ b = 'B' → PrefixedNumeral ('0' :: b :: Nat.toDigits 2 n) n := by
  refine ⟨.decimal (digits_toDigits (by decide) (by decide) n) ?_, ?_, ?_, ?_⟩
  · intro h
    rw [head_toDigits_zero h]
    rfl
  · intro x hx
    exact .hex hx (digits_toDigits (by decide) (by decide) n)
  · intro hlength
    exact .octal (digits_toDigits (by decide) (by decide) n) hlength
  · intro b hb
    exact .binary hb (digits_toDigits (by decide) (by decide) n)

/-- `std::stoull` stops at the prefix of base 2 and, in the bases 8 and 16, before
the first character that is no digit. -/
theorem stoi_understood_iff (arg : Text) : Understood arg ↔ Harmless arg := by
  unfold Harmless
  rcases getBase_cases arg with h | h | h | h
  · simp [h, understood_unknown h]
  · rw [understood_binary h]
    simp [h]
  · rw [understood_ranged h]
    have hne : getBase arg ≠ 2 := by omega
    simp [h, hne]
  · simp [h, understood_decimal h]

/-- `0b101` is read as 0. -/
theorem not_stoi_understood : ¬∀ arg, Understood arg := by
  intro h
  have hdigits : Digits 2 ['1', '0', '1'] 5 := ⟨[1, 0, 1], by decide, by decide, rfl⟩
  have hfive := (h ['0', 'b', '1', '0', '1']).1 5 (by decide) (.binary (Or.inl rfl) hdigits)
  have hzero : stoi ['0', 'b', '1', '0', '1'] = .ok 0 := stoi_binary (by decide)
  rw [hzero] at hfive
  exact absurd (Except.ok.inj hfive) (by decide)

end Userworks.E16
