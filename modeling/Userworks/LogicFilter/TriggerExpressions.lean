import Userworks.LogicFilter.ExprParser
import Userworks.LogicFilter.Numerals
import Mathlib.Data.List.Forall2

/-!
Texts of typed trigger expressions: every text that writes a list of triggers,
with any blanks around the parts and any empty segments, is read back as that list.
-/
namespace Userworks
namespace ExprParser

/-- An expression that can stand in a list. -/
structure IsExpr (expr : Text) : Prop where
  ne_nil : expr ≠ []
  no_semicolon : ';' ∉ expr
  no_colon : ':' ∉ expr
  trimmed : Trimmed isBlank expr

/-- A word with any blanks around it. -/
def Padded (word text : Text) : Prop :=
  ∃ before after, text = before ++ (word ++ after) ∧
    (∀ c ∈ before, isBlank c = true) ∧ ∀ c ∈ after, isBlank c = true

/-- What may stand between two semicolons: nothing, or one trigger. -/
inductive SegmentText : Text → List TrgExpression → Prop where
  | blank {pad : Text} : (∀ c ∈ pad, isBlank c = true) → SegmentText pad []
  | pair {t : TrgExpression} {digits left right : Text} :
      Digits 16 digits t.type.toNat → Padded ('0' :: 'x' :: digits) left → Padded t.expr right →
      SegmentText (left ++ ':' :: right) [t]

/-- The texts of a list of triggers. -/
inductive ListText : Text → List TrgExpression → Prop where
  | last {seg : Text} {trigs : List TrgExpression} : SegmentText seg trigs → ListText seg trigs
  | cons {seg rest : Text} {trigs more : List TrgExpression} :
      SegmentText seg trigs → ListText rest more → ListText (seg ++ ';' :: rest) (trigs ++ more)

/-- A line that `Parsing` turns into a trigger. -/
def ReadsAs (line : Text) (t : TrgExpression) : Prop :=
  readTrigger (separate ':' line) = .ok (some t)

theorem parsingLines_of_forall₂ {lines : List Text} {trigs : List TrgExpression}
    (h : List.Forall₂ ReadsAs lines trigs) (before : List TrgExpression) :
    parsingLines before lines = .ok (before ++ trigs) := by
  induction h generalizing before with
  | nil => rw [parsingLines, List.append_nil]
  | cons hline _ ih =>
      rw [parsingLines, hline]
      simp only [ih, List.append_assoc, List.singleton_append]

theorem not_mem_of_forall_blank {c : Char} {pad : Text} (hc : isBlank c = false)
    (h : ∀ x ∈ pad, isBlank x = true) : c ∉ pad := by
  intro hmem
  rw [h c hmem] at hc
  cases hc

theorem Padded.not_mem {c : Char} {word text : Text} (h : Padded word text) (hc : isBlank c = false)
    (hw : c ∉ word) : c ∉ text := by
  obtain ⟨before, after, rfl, hbefore, hafter⟩ := h
  simp only [List.mem_append, not_or]
  exact ⟨not_mem_of_forall_blank hc hbefore, hw, not_mem_of_forall_blank hc hafter⟩

theorem Padded.segment {word text : Text} (h : Padded word text) (ht : Trimmed isBlank word)
    (hne : word ≠ []) : Userworks.segment isBlank text = [word] := by
  obtain ⟨before, after, rfl, hbefore, hafter⟩ := h
  exact segment_pad hbefore hafter ht hne

/-- A hexadecimal numeral has no character but its prefix and digits. -/
theorem not_mem_hex {digits : Text} {n : Nat} (h : Digits 16 digits n) {c : Char}
    (hfirst : c ≠ '0' ∧ c ≠ 'x') (hc : digitValue 16 c = none) : c ∉ '0' :: 'x' :: digits := by
  simp only [List.mem_cons, not_or]
  refine ⟨hfirst.1, hfirst.2, fun hmem => ?_⟩
  obtain ⟨d, hd⟩ := h.exists_value hmem
  rw [hc] at hd
  cases hd

theorem hex_of_isBlank {c : Char} (h : isBlank c = true) :
    (c ≠ '0' ∧ c ≠ 'x') ∧ digitValue 16 c = none := by
  have hcases : c = ' ' ∨ c = '\t' ∨ c = '\n' := by
    simpa [isBlank, or_assoc] using h
  rcases hcases with rfl | rfl | rfl <;> decide

theorem trimmed_hex {digits : Text} {n : Nat} (h : Digits 16 digits n) :
    Trimmed isBlank ('0' :: 'x' :: digits) := by
  refine ⟨fun c hc => ?_, fun c hc => ?_⟩
  · cases hc
    decide
  · apply Bool.eq_false_iff.mpr
    intro hblank
    have hnot := hex_of_isBlank hblank
    exact not_mem_hex h hnot.1 hnot.2 (List.mem_of_mem_getLast? hc)

/-- The two words of a line decide its trigger. -/
theorem readTrigger_hex {t : TrgExpression} {digits : Text} (h : Digits 16 digits t.type.toNat) :
    readTrigger ['0' :: 'x' :: digits, t.expr] = .ok (some t) := by
  have hstoul : stoulThrowing ('0' :: 'x' :: digits) = .ok t.type.toNat := by
    have hlt := t.type.isLt
    rw [stoulThrowing, stoul_numeral (.hex h) (by omega)]
  simp only [readTrigger, List.getElem?_cons_zero, hstoul, List.getElem?_cons_succ,
    BitVec.ofNat_toNat, BitVec.setWidth_eq]

/-- A line has the numeral and the expression as its words. -/
theorem separate_hexLine {t : TrgExpression} {digits mid mid' : Text}
    (hdigits : Digits 16 digits t.type.toNat) (ht : IsExpr t.expr)
    (hmid : ∀ c ∈ mid, isBlank c = true) (hmid' : ∀ c ∈ mid', isBlank c = true) :
    separate ':' (('0' :: 'x' :: digits ++ mid) ++ ':' :: (mid' ++ t.expr)) =
      ['0' :: 'x' :: digits, t.expr] := by
  have hleft : Padded ('0' :: 'x' :: digits) ('0' :: 'x' :: digits ++ mid) :=
    ⟨[], mid, rfl, by simp, hmid⟩
  have hright : Padded t.expr (mid' ++ t.expr) := ⟨mid', [], by simp, hmid', by simp⟩
  have hcolon : ':' ∉ '0' :: 'x' :: digits := not_mem_hex hdigits (by decide) (by decide)
  rw [separate_eq_segments, segments_append_sep,
    segments_of_not_mem (hleft.not_mem (by decide) hcolon),
    segments_of_not_mem (hright.not_mem (by decide) ht.no_colon),
    hleft.segment (trimmed_hex hdigits) (by simp), hright.segment ht.trimmed ht.ne_nil]
  rfl

/-- The line of a trigger is its segment without the outer blanks. -/
theorem segmentText_lines {seg : Text} {trigs : List TrgExpression} (h : SegmentText seg trigs)
    (hexpr : ∀ t ∈ trigs, IsExpr t.expr) :
    List.Forall₂ ReadsAs (segments isBlank ';' seg) trigs := by
  cases h with
  | blank hpad =>
      rw [segments_of_not_mem (not_mem_of_forall_blank (by decide) hpad),
        segment_of_forall_blank hpad]
      exact .nil
  | @pair t digits left right hdigits hleft hright =>
      have ht := hexpr t (by simp)
      have hnumeral : ';' ∉ '0' :: 'x' :: digits := not_mem_hex hdigits (by decide) (by decide)
      have hsemicolon : ';' ∉ left ++ ':' :: right := by
        simp [hleft.not_mem (by decide) hnumeral, hright.not_mem (by decide) ht.no_semicolon]
      obtain ⟨before, mid, rfl, hbefore, hmid⟩ := hleft
      obtain ⟨mid', after, rfl, hmid', hafter⟩ := hright
      have hpad : Padded (('0' :: 'x' :: digits ++ mid) ++ ':' :: (mid' ++ t.expr))
          (before ++ ('0' :: 'x' :: digits ++ mid) ++ ':' :: (mid' ++ (t.expr ++ after))) :=
        ⟨before, after, by simp, hbefore, hafter⟩
      have htrimmed :
          Trimmed isBlank (('0' :: 'x' :: digits ++ mid) ++ ':' :: (mid' ++ t.expr)) := by
        refine ⟨fun c hc => ?_, fun c hc => ?_⟩
        · cases hc
          decide
        · apply ht.trimmed.2 c
          rw [List.getLast?_append_of_ne_nil _ (by simp), ← List.singleton_append,
            ← List.append_assoc, List.getLast?_append_of_ne_nil _ ht.ne_nil] at hc
          exact hc
      rw [segments_of_not_mem hsemicolon, hpad.segment htrimmed (by simp)]
      refine .cons ?_ .nil
      rw [ReadsAs, separate_hexLine hdigits ht hmid hmid']
      exact readTrigger_hex hdigits

theorem listText_lines {text : Text} {trigs : List TrgExpression} (h : ListText text trigs)
    (hexpr : ∀ t ∈ trigs, IsExpr t.expr) :
    List.Forall₂ ReadsAs (segments isBlank ';' text) trigs := by
  induction h with
  | last hseg => exact segmentText_lines hseg hexpr
  | cons hseg _ ih =>
      rw [segments_append_sep]
      refine List.rel_append (segmentText_lines hseg fun t ht => ?_) (ih fun t ht => ?_)
      · exact hexpr t (List.mem_append_left _ ht)
      · exact hexpr t (List.mem_append_right _ ht)

/-- Every text of a list of triggers is read as that list. -/
theorem parsing_listText (trigs : List TrgExpression) (hexpr : ∀ t ∈ trigs, IsExpr t.expr)
    (text : Text) (h : ListText text trigs) : parsing text = .ok trigs := by
  rw [parsing, lineSeparation, separate_eq_segments]
  exact parsingLines_of_forall₂ (listText_lines h hexpr) []

theorem parsing_listText_two :
    parsing " 0x55000000 : (0 & 1) | 2 ;;\n0xaA000001:\t3 ; ".toList =
      .ok [{ type := 0x55000000, expr := "(0 & 1) | 2".toList },
        { type := 0xaa000001, expr := "3".toList }] := by
  refine parsing_listText _ ?_ _ ?_
  · intro t ht
    rcases List.mem_pair.mp ht with rfl | rfl
    · exact ⟨by decide, by decide, by decide, by decide⟩
    · exact ⟨by decide, by decide, by decide, by decide⟩
  · have hdigits : Digits 16 "55000000".toList 0x55000000 :=
      ⟨[5, 5, 0, 0, 0, 0, 0, 0], by decide, by decide, by decide⟩
    have hdigits' : Digits 16 "aA000001".toList 0xaa000001 :=
      ⟨[10, 10, 0, 0, 0, 0, 0, 1], by decide, by decide, by decide⟩
    have hfirst : SegmentText (" 0x55000000 ".toList ++ ':' :: " (0 & 1) | 2 ".toList)
        [{ type := 0x55000000, expr := "(0 & 1) | 2".toList }] :=
      .pair hdigits ⟨[' '], [' '], by decide, by simp [isBlank], by simp [isBlank]⟩
        ⟨[' '], [' '], by decide, by simp [isBlank], by simp [isBlank]⟩
    have hsecond : SegmentText ("\n0xaA000001".toList ++ ':' :: "\t3 ".toList)
        [{ type := 0xaa000001, expr := "3".toList }] :=
      .pair hdigits' ⟨['\n'], [], by decide, by simp [isBlank], by simp⟩
        ⟨['\t'], [' '], by decide, by simp [isBlank], by simp [isBlank]⟩
    have hblank : SegmentText [] [] := .blank (by simp)
    have hend : SegmentText [' '] [] := .blank (by simp [isBlank])
    exact .cons hfirst (.cons hblank (.cons hsecond (.last hend)))

end ExprParser
end Userworks
