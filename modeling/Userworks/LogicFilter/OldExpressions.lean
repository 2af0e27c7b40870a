import Userworks.LogicFilter.ExprParser
import Mathlib.Data.List.Forall2

/-!
Trigger expressions in the old format, a line that is an expression alone.

The parser takes a line for one of the old format when its first word is no
number, and then asks for no second word. It therefore honours the old format as
long as no such line starts with a number.
-/
namespace Userworks
namespace ExprParser

/-- The trigger that a line of the old format stands for. -/
def oldFormat (line : Text) : TrgExpression := { type := 0xaa000000, expr := line }

/-- Only words that exist are accessed, and every line without a colon has become
its trigger: the list is that of the first lines, and no such line is behind them. -/
def HonoursOldFormat (text : Text) : Prop :=
  ∃ trigs n, parsing text = .ok trigs ∧
    List.Forall₂ (fun line t => ':' ∉ line → t = oldFormat line)
      ((segments isBlank ';' text).take n) trigs ∧
    ∀ line ∈ (segments isBlank ';' text).drop n, ':' ∈ line

/-- The first word of a line as a number, if there is a word. -/
def numberOf (line : Text) : Option (Except StoulException Nat) :=
  (segments isBlank ':' line).head?.map stoulThrowing

/-- There is a word, and a second one behind a number. -/
def HasWords (line : Text) : Prop :=
  segments isBlank ':' line ≠ [] ∧
    ∀ ll, numberOf line = some (.ok ll) → 2 ≤ (segments isBlank ':' line).length

def inRange (line : Text) : Bool := numberOf line ≠ some (.error .outOfRange)

/-- The lines up to the first number that is out of range have their words, and
none from there on is of the old format. -/
def OldFormatReadable (text : Text) : Prop :=
  (∀ line ∈ (segments isBlank ';' text).takeWhile inRange, HasWords line) ∧
    ∀ line ∈ (segments isBlank ';' text).dropWhile inRange, ':' ∈ line

/-- What `Parsing` does with one line. -/
inductive Reading (line : Text) : Except Fault (Option TrgExpression) → Prop where
  | missing : inRange line = true → ¬HasWords line → Reading line (.error .undefined)
  | trigger {t : TrgExpression} : inRange line = true → HasWords line →
      (':' ∉ line → t = oldFormat line) → Reading line (.ok (some t))
  | leave : inRange line = false → Reading line (.ok none)

theorem segments_oldFormat {line : Text} (hne : line ≠ []) (ht : Trimmed isBlank line)
    (h : ':' ∉ line) : segments isBlank ':' line = [line] := by
  rw [segments_of_not_mem h, segment, trim_of_trimmed ht, if_neg (by simp [hne])]

theorem reading_line {line : Text} (hne : line ≠ []) (ht : Trimmed isBlank line) :
    Reading line (readTrigger (separate ':' line)) := by
  rw [separate_eq_segments]
  cases hwords : segments isBlank ':' line with
  | nil =>
      refine .missing ?_ fun h => h.1 hwords
      simp [inRange, numberOf, hwords]
  | cons first rest =>
      have hnumber : numberOf line = some (stoulThrowing first) := by
        rw [numberOf, hwords]
        rfl
      have hold : ':' ∉ line → first = line ∧ rest = [] := fun h => by
        rw [segments_oldFormat hne ht h] at hwords
        exact ⟨(List.cons.inj hwords).1.symm, (List.cons.inj hwords).2.symm⟩
      simp only [readTrigger, List.getElem?_cons_zero]
      cases hstoul : stoulThrowing first with
      | ok ll =>
          have hrange : inRange line = true := by simp [inRange, hnumber, hstoul]
          cases rest with
          | nil =>
              refine .missing hrange fun h => ?_
              have hlen := h.2 ll (by rw [hnumber, hstoul])
              rw [hwords] at hlen
              exact Nat.not_succ_le_self 1 hlen
          | cons second rest =>
              refine .trigger hrange ⟨by rw [hwords]; exact List.cons_ne_nil _ _, fun _ _ => ?_⟩
                fun h => nomatch (hold h).2
              rw [hwords]
              exact Nat.le_add_left 2 rest.length
      | error e =>
          cases e with
          | invalidArgument =>
              refine .trigger (by simp [inRange, hnumber, hstoul])
                ⟨by rw [hwords]; exact List.cons_ne_nil _ _, fun ll h => ?_⟩ fun h => ?_
              · rw [hnumber, hstoul] at h
                cases h
              · rw [(hold h).1]
                rfl
          | outOfRange => exact .leave (by simp [inRange, hnumber, hstoul])

theorem prefix_parsingLines {before trigs : List TrgExpression} {lines : List Text}
    (h : parsingLines before lines = .ok trigs) : before <+: trigs := by
  induction lines generalizing before with
  | nil =>
      cases h
      exact List.prefix_rfl
  | cons line lines ih =>
      rw [parsingLines] at h
      cases hread : readTrigger (separate ':' line) with
      | error fault => simp [hread] at h
      | ok result =>
          rw [hread] at h
          cases result with
          | none =>
              cases h
              exact List.prefix_rfl
          | some t => exact (List.prefix_append before [t]).trans (ih h)

/-- The lines are read as `HonoursOldFormat` wants it, behind the triggers so far. -/
def LinesHonoured (before : List TrgExpression) (lines : List Text) : Prop :=
  ∃ trigs n, parsingLines before lines = .ok (before ++ trigs) ∧
    List.Forall₂ (fun line t => ':' ∉ line → t = oldFormat line) (lines.take n) trigs ∧
    ∀ line ∈ lines.drop n, ':' ∈ line

theorem linesHonoured_leave {before : List TrgExpression} {line : Text} {lines : List Text}
    (h : readTrigger (separate ':' line) = .ok none) :
    LinesHonoured before (line :: lines) ↔ ∀ l ∈ line :: lines, ':' ∈ l := by
  have hparse : parsingLines before (line :: lines) = .ok before := by
    rw [parsingLines, h]
  refine ⟨fun hhonoured => ?_, fun hcolon => ⟨[], 0, by rw [hparse, List.append_nil], .nil, hcolon⟩⟩
  obtain ⟨trigs, n, hok, hall, hcolon⟩ := hhonoured
  rw [hparse, Except.ok.injEq] at hok
  have htrigs : trigs = [] := List.self_eq_append_right.mp hok
  subst htrigs
  have hn : n = 0 := by
    cases n with
    | zero => rfl
    | succ n => cases hall
  subst hn
  exact hcolon

theorem linesHonoured_trigger {before : List TrgExpression} {line : Text} {lines : List Text}
    {t : TrgExpression} (h : readTrigger (separate ':' line) = .ok (some t))
    (ht : ':' ∉ line → t = oldFormat line) :
    LinesHonoured before (line :: lines) ↔ LinesHonoured (before ++ [t]) lines := by
  have hparse : parsingLines before (line :: lines) = parsingLines (before ++ [t]) lines := by
    rw [parsingLines, h]
  constructor
  · intro hhonoured
    obtain ⟨trigs, n, hok, hall, hcolon⟩ := hhonoured
    rw [hparse] at hok
    obtain ⟨trigs', htrigs⟩ := prefix_parsingLines hok
    rw [List.append_assoc, List.append_cancel_left_eq] at htrigs
    subst htrigs
    cases n with
    | zero => cases hall
    | succ n =>
        cases hall with
        | cons _ hall => exact ⟨trigs', n, by rw [hok, List.append_assoc], hall, hcolon⟩
  · intro hhonoured
    obtain ⟨trigs, n, hok, hall, hcolon⟩ := hhonoured
    exact ⟨t :: trigs, n + 1, by rw [hparse, hok, List.append_assoc, List.singleton_append],
      .cons ht hall, hcolon⟩

theorem linesHonoured_iff (lines : List Text) (before : List TrgExpression)
    (hlines : ∀ line ∈ lines, line ≠ [] ∧ Trimmed isBlank line) :
    LinesHonoured before lines ↔
      (∀ line ∈ lines.takeWhile inRange, HasWords line) ∧
        ∀ line ∈ lines.dropWhile inRange, ':' ∈ line := by
  induction lines generalizing before with
  | nil =>
      refine ⟨fun _ => ⟨by simp, by simp⟩, fun _ => ⟨[], 0, ?_, .nil, by simp⟩⟩
      rw [parsingLines, List.append_nil]
  | cons line lines ih =>
      have hline := hlines line (by simp)
      have hrest := fun before => ih before fun l hl => hlines l (List.mem_cons_of_mem _ hl)
      generalize hread : readTrigger (separate ':' line) = result
      have hreading : Reading line result := hread ▸ reading_line hline.1 hline.2
      cases hreading with
      | missing hrange hmissing =>
          rw [List.takeWhile_cons_of_pos hrange]
          refine ⟨fun h => ?_, fun h => absurd (h.1 line (by simp)) hmissing⟩
          obtain ⟨trigs, n, hok, -⟩ := h
          simp [parsingLines, hread] at hok
      | trigger hrange hwords ht =>
          rw [List.takeWhile_cons_of_pos hrange, List.dropWhile_cons_of_pos hrange,
            linesHonoured_trigger hread ht, hrest, List.forall_mem_cons, and_assoc]
          exact ⟨fun h => ⟨hwords, h⟩, fun h => h.2⟩
      | leave hrange =>
          rw [List.takeWhile_cons_of_neg (by simp [hrange]),
            List.dropWhile_cons_of_neg (by simp [hrange]), linesHonoured_leave hread]
          exact ⟨fun h => ⟨by simp, h⟩, fun h => h.2⟩

/-- The parser honours the old format exactly on these texts. -/
theorem honoursOldFormat_iff (text : Text) : HonoursOldFormat text ↔ OldFormatReadable text := by
  have hlines := linesHonoured_iff (segments isBlank ';' text) [] fun line h => mem_segments h
  have hparse : parsing text = parsingLines [] (segments isBlank ';' text) := by
    rw [parsing, lineSeparation, separate_eq_segments]
  rw [HonoursOldFormat, hparse, OldFormatReadable, ← hlines]
  rfl

/-- A segment that starts with a digit asks for a word that is not there. -/
theorem not_honoursOldFormat_digit : ¬HonoursOldFormat "0 & 1".toList := by
  intro h
  obtain ⟨trigs, n, hok, -⟩ := h
  have hundefined : parsing "0 & 1".toList = .error .undefined := by decide
  rw [hundefined] at hok
  cases hok

end ExprParser
end Userworks
