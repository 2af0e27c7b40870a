import Userworks.LogicFilter.StackHeight
import Userworks.LogicFilter.TriggerMap

/-!
The bounds of the look-up table and what a table keeps of the formulas it was
made for before.

One formula fills a table of `2 ^ n` cells for its `n` signals and adds `n` low
bits to the mask. The number of signals may be 32, which the shift that gives
the table size cannot take; and the mask is never cleared, so on a map used again
it belongs to the largest formula so far and not to the table.
-/
namespace Userworks
namespace LogiCalc

/-- The signals that commands read. -/
def signals (coms : List Text) : List Nat :=
  (coms.filter (List.all · isdigit)).map fun com => (atoi com).toNat

def highestSignal (coms : List Text) : Nat := (signals coms).foldl max 0

theorem highestSignal_number (coms : List Text) (word : Text) (h : word.all isdigit = true) :
    highestSignal (coms ++ [word]) = max (highestSignal coms) (atoi word).toNat := by
  simp [highestSignal, signals, h]

theorem highestSignal_operator (coms : List Text) (word : Text)
    (h : ¬ word.all isdigit = true) :
    highestSignal (coms ++ [word]) = highestSignal coms := by
  simp [highestSignal, signals, h]

theorem highestSignal_le_iff (coms : List Text) (bound : Nat) :
    highestSignal coms ≤ bound ↔ ∀ i ∈ signals coms, i ≤ bound := by
  have hloop : ∀ (is : List Nat) (m : Nat),
      is.foldl max m ≤ bound ↔ m ≤ bound ∧ ∀ i ∈ is, i ≤ bound := by
    intro is
    induction is with
    | nil => simp
    | cons i is ih =>
        intro m
        rw [List.foldl_cons, ih, Nat.max_le, and_assoc, List.forall_mem_cons]
  rw [highestSignal, hloop]
  exact and_iff_right (Nat.zero_le bound)

/-- What holds of no commands and survives `ComPushBack` holds of every formula
that is set. -/
theorem setFormula_preserves {P : LogiCalc → Prop} (hstart : P {})
    (hstep : ∀ lc word, P lc → P (lc.comPushBack word)) {compile : Text → Except Fault Ast}
    {text : Text} {lc : LogiCalc} (hset : setFormula compile text = .ok lc) : P lc := by
  have hloop : ∀ (words : List Text) (lc : LogiCalc), P lc → P (words.foldl
      (fun lc word => if word.length > 0 then lc.comPushBack word else lc) lc) := by
    intro words
    induction words with
    | nil => exact fun _ h => h
    | cons word words ih =>
        intro lc h
        apply ih
        dsimp only
        split
        · exact hstep lc word h
        · exact h
  rw [setFormula] at hset
  cases hform : postfixText compile text with
  | error fault =>
      rw [hform] at hset
      cases hset
  | ok sform =>
      rw [hform] at hset
      cases hset
      exact hloop _ _ hstart

/-- `fSigMax` is the highest signal among the commands, and 31 is the highest the
parser lets through. -/
theorem comPushBack_sigMax (lc : LogiCalc) (word : Text)
    (h : lc.fSigMax = highestSignal lc.fCommands ∧ lc.fSigMax < 32) :
    (lc.comPushBack word).fSigMax = highestSignal (lc.comPushBack word).fCommands ∧
      (lc.comPushBack word).fSigMax < 32 := by
  rw [comPushBack]
  split
  case isFalse => exact h
  split
  case isTrue hnum =>
    dsimp only
    split
    case isFalse => exact h
    case isTrue hrange =>
      have hsmall : (atoi word).toNat < 32 := by
        have := hrange.2
        simp only [fNsigMax] at this
        omega
      rw [highestSignal_number _ _ hnum, ← h.1]
      dsimp only
      split <;> omega
  case isFalse hnum =>
    split
    case isTrue => exact ⟨h.1.trans (highestSignal_operator _ _ hnum).symm, h.2⟩
    case isFalse => exact h

theorem setFormula_sigMax {compile : Text → Except Fault Ast} {text : Text} {lc : LogiCalc}
    (hset : setFormula compile text = .ok lc) :
    lc.fSigMax = highestSignal lc.fCommands ∧ lc.fSigMax < 32 :=
  setFormula_preserves (P := fun lc => lc.fSigMax = highestSignal lc.fCommands ∧ lc.fSigMax < 32)
    ⟨rfl, by decide⟩ comPushBack_sigMax hset

/-- A formula that is set, reads signals up to 30 and is evaluated without looking
at an empty stack. -/
def Valid (text : Text) (lc : LogiCalc) : Prop :=
  setFormula infixtorpn text = .ok lc ∧ highestSignal lc.fCommands ≤ 30 ∧
    StackSafe lc.fCommands

end LogiCalc

/-- A calculator that is undefined on every pattern leaves no table. -/
theorem fillLut_eq_error (lc : LogiCalc) (h : ∀ v, ¬ ∃ b, lc.calcFormula v = .ok b)
    (size : Nat) (hsize : 0 < size) (lut : List Bool) :
    ¬ ∃ lut', fillLut lc size lut = .ok lut' := by
  intro hfill
  obtain ⟨lut', hfill⟩ := hfill
  cases size with
  | zero => exact absurd hsize (Nat.lt_irrefl 0)
  | succ size =>
      rw [fillLut, List.range_succ_eq_map, List.foldlM_cons] at hfill
      cases hcalc : lc.calcFormula (BitVec.ofNat 32 0) with
      | error fault =>
          rw [hcalc] at hfill
          cases hfill
      | ok b => exact h _ ⟨b, hcalc⟩

theorem addSignalMask_addSignalMask (n m : Nat) (hn : n ≤ 32) (hm : m ≤ 32) :
    addSignalMask n (addSignalMask m 0) = addSignalMask (max m n) 0 := by
  apply BitVec.eq_of_getLsbD_eq
  intro j hj
  rw [getLsbD_addSignalMask _ n j hn, getLsbD_addSignalMask _ m j hm,
    getLsbD_addSignalMask _ (max m n) j (by omega), Bool.or_assoc, ← Bool.decide_or]
  congr 2
  exact propext (by omega)

namespace TriggerMap

open LogiCalc

/-- A map that was last made for a formula with `n` signals; the mask need not be
that of the formula. -/
def made (lut : List Bool) (n : Nat) (mask : BitVec 32) : TriggerMap where
  fLut := lut
  fNsignal := n
  fSignalMask := mask
  fMapSize := 2 ^ n

@[simp] theorem made_fLut (lut : List Bool) (n : Nat) (mask : BitVec 32) :
    (made lut n mask).fLut = lut := rfl

/-- What `MakeTable` does to any map: table and size are those of the formula, the
mask takes its bits in addition. -/
theorem makeTable_of_valid {text : Text} {lc : LogiCalc} (h : Valid text lc) :
    ∃ lut, lut.length = 2 ^ (highestSignal lc.fCommands + 1) ∧
      ∀ tm : TriggerMap, tm.makeTable text = .ok (made lut (highestSignal lc.fCommands + 1)
        (addSignalMask (highestSignal lc.fCommands + 1) tm.fSignalMask)) := by
  obtain ⟨hset, hsig, hsafe⟩ := h
  have hvalue : ∀ v, ∃ b, lc.calcFormula v = .ok b :=
    fun v => (calcFormula_defined_iff lc v).mpr hsafe
  choose value hvalue using hvalue
  have hmax := (setFormula_sigMax hset).1
  refine ⟨(List.range (2 ^ (lc.fSigMax + 1))).map fun i => value (BitVec.ofNat 32 i), ?_, ?_⟩
  · rw [List.length_map, List.length_range, hmax]
  · intro tm
    rw [makeTable, buildTable_eq_map hset (by omega) hvalue, made, ← hmax,
      ← Nat.one_shiftLeft]
    rfl

/-- A call of `MakeTable` that comes to its end had neither of the two failures. -/
theorem valid_of_makeTable {text : Text} {lc : LogiCalc} {tm tm' : TriggerMap}
    (hset : setFormula infixtorpn text = .ok lc) (hmake : tm.makeTable text = .ok tm') :
    Valid text lc := by
  rw [makeTable, buildTable, hset] at hmake
  simp only [bind, Except.bind] at hmake
  by_cases hsig : lc.fSigMax + 1 < 32
  · rw [if_pos hsig] at hmake
    refine ⟨hset, ?_, ?_⟩
    · rw [← (setFormula_sigMax hset).1]
      omega
    · apply Classical.byContradiction
      intro hunsafe
      cases hfill : fillLut lc (1 <<< (lc.fSigMax + 1))
          (resizeLut (1 <<< (lc.fSigMax + 1)) tm.fLut) with
      | error fault =>
          rw [hfill] at hmake
          cases hmake
      | ok lut =>
          refine fillLut_eq_error lc (fun v => ?_) _ ?_ _ ⟨lut, hfill⟩
          · rw [calcFormula_defined_iff]
            exact hunsafe
          · rw [Nat.one_shiftLeft]
            exact Nat.two_pow_pos _
  · rw [if_neg hsig] at hmake
    cases hmake

/-- A table of `2 ^ n` cells is read inside its bounds exactly when the mask holds
no bit above `n`. -/
theorem lookUpIndex_lt_iff {n m : Nat} (tm : TriggerMap) (hm : m ≤ 32) (hn : n ≤ 31)
    (hsize : tm.fMapSize = 2 ^ n) (hmask : tm.fSignalMask = addSignalMask m 0) :
    (∀ v, tm.lookUpIndex v < 2 ^ n) ↔ m ≤ n := by
  have hindex := tm.lookUpIndex_of_mask hm hsize hmask
  constructor
  · intro h
    apply Nat.le_of_not_lt
    intro hlt
    -- The pattern with the one bit just above the table is not cut.
    have hpow : 2 ^ n < 2 ^ 32 := Nat.pow_lt_pow_right (by decide) (by omega)
    have hv := h (BitVec.ofNat 32 (2 ^ n))
    rw [hindex, BitVec.toNat_ofNat, Nat.mod_eq_of_lt hpow, if_neg (Nat.lt_irrefl _),
      Nat.mod_eq_of_lt (Nat.pow_lt_pow_right (by decide) hlt)] at hv
    exact Nat.lt_irrefl _ hv
  · intro hle v
    rw [hindex]
    split
    · assumption
    · exact Nat.lt_of_lt_of_le (Nat.mod_lt _ (Nat.two_pow_pos m))
        (Nat.pow_le_pow_right (by decide) hle)

/-- A formula that `SetFormula` accepts gives a table with a cell for every pattern
of its signals, read inside its bounds, exactly when signal 31 is not used and the
evaluation never looks at an empty stack. -/
theorem lookUpIndex_inside_iff {text : Text} {lc : LogiCalc}
    (hset : setFormula infixtorpn text = .ok lc) :
    (∃ tm, ({} : TriggerMap).makeTable text = .ok tm ∧
        tm.fLut.length = 2 ^ (highestSignal lc.fCommands + 1) ∧
        ∀ v, tm.lookUpIndex v < tm.fLut.length) ↔
      31 ∉ signals lc.fCommands ∧ StackSafe lc.fCommands := by
  constructor
  · intro h
    obtain ⟨tm, hmake, -, -⟩ := h
    obtain ⟨-, hsig, hsafe⟩ := valid_of_makeTable hset hmake
    refine ⟨fun hmem => ?_, hsafe⟩
    exact absurd ((highestSignal_le_iff lc.fCommands 30).mp hsig 31 hmem) (by decide)
  · intro h
    have hmax := setFormula_sigMax hset
    have hsig : highestSignal lc.fCommands ≤ 30 := by
      rw [highestSignal_le_iff]
      intro i hi
      have hle := (highestSignal_le_iff lc.fCommands 31).mp (by omega) i hi
      have hne : i ≠ 31 := fun heq => h.1 (heq ▸ hi)
      omega
    obtain ⟨lut, hlength, hmake⟩ := makeTable_of_valid ⟨hset, hsig, h.2⟩
    refine ⟨_, hmake {}, hlength, ?_⟩
    rw [made_fLut, hlength]
    exact (lookUpIndex_lt_iff _ (by omega) (by omega) rfl rfl).mpr (Nat.le_refl _)

/-- Signal 30 is the last one a table can be made for. -/
theorem lookUpIndex_inside_iff_last :
    (∃ tm, ({} : TriggerMap).makeTable "RPN 30 0 |".toList = .ok tm ∧
        tm.fLut.length = 2 ^ (highestSignal (ofRpn "RPN 30 0 |".toList).fCommands + 1) ∧
        ∀ v, tm.lookUpIndex v < tm.fLut.length) ↔
      31 ∉ signals (ofRpn "RPN 30 0 |".toList).fCommands ∧
        StackSafe (ofRpn "RPN 30 0 |".toList).fCommands :=
  lookUpIndex_inside_iff (setFormula_rpn infixtorpn (by decide))

/-- Signal 31 is accepted, and the table size is a shift by 32. -/
theorem no_table_for_signal_31 :
    setFormula infixtorpn "RPN 31".toList = .ok (ofRpn "RPN 31".toList) ∧
      (ofRpn "RPN 31".toList).fCommands = [['3', '1']] ∧
      ({} : TriggerMap).makeTable "RPN 31".toList = .error .undefined := by
  have hset : setFormula infixtorpn "RPN 31".toList = .ok (ofRpn "RPN 31".toList) :=
    setFormula_rpn infixtorpn (by decide)
  refine ⟨hset, by decide, ?_⟩
  rw [makeTable, buildTable, hset]
  rfl

/-- The number of the highest signal a formula text reads; 0 for a text that is
not accepted. -/
def highestSignalOf (formula : Text) : Nat :=
  match setFormula infixtorpn formula with
  | .ok lc => highestSignal lc.fCommands
  | .error _ => 0

/-- Valid formulas, one after the other, on a map whose mask holds `m` bits. -/
theorem foldlM_makeTable (formulas : List Text)
    (hvalid : ∀ formula ∈ formulas, ∃ lc, Valid formula lc) (tm : TriggerMap) (m : Nat)
    (hm : m ≤ 31) (hmask : tm.fSignalMask = addSignalMask m 0) :
    ∃ tm' m', formulas.foldlM makeTable tm = .ok tm' ∧ m' ≤ 31 ∧
      tm'.fSignalMask = addSignalMask m' 0 ∧
      ∀ n, m' ≤ n + 1 ↔ m ≤ n + 1 ∧ ∀ formula ∈ formulas, highestSignalOf formula ≤ n := by
  induction formulas generalizing tm m with
  | nil => exact ⟨tm, m, rfl, hm, hmask, fun n => by simp⟩
  | cons formula formulas ih =>
      obtain ⟨lc, hlc⟩ := hvalid formula (by simp)
      obtain ⟨lut, -, hmake⟩ := makeTable_of_valid hlc
      have hhigh : highestSignalOf formula = highestSignal lc.fCommands := by
        rw [highestSignalOf, hlc.1]
      have hle : highestSignal lc.fCommands ≤ 30 := hlc.2.1
      obtain ⟨tm', m', hrun, hm', hmask', hn⟩ := ih
        (fun formula hf => hvalid formula (List.mem_cons_of_mem _ hf))
        (made lut (highestSignal lc.fCommands + 1)
          (addSignalMask (highestSignal lc.fCommands + 1) tm.fSignalMask))
        (max m (highestSignal lc.fCommands + 1)) (by omega)
        (by rw [made, hmask, addSignalMask_addSignalMask _ _ (by omega) (by omega)])
      refine ⟨tm', m', ?_, hm', hmask', fun n => ?_⟩
      · rw [List.foldlM_cons, hmake]
        exact hrun
      rw [hn, List.forall_mem_cons, hhigh, Nat.max_le, Nat.add_le_add_iff_right, and_assoc]

/-- After any history of valid formulas the look-up is inside the table and answers
every pattern like a new map with the last formula, exactly when no earlier formula
reads a higher signal than the last one. -/
theorem lookUp_after_history_iff (earlier : List Text) (last : Text)
    (hvalid : ∀ formula ∈ earlier ++ [last], ∃ lc, Valid formula lc) :
    ∃ tm fresh, (earlier ++ [last]).foldlM makeTable {} = .ok tm ∧
      ({} : TriggerMap).makeTable last = .ok fresh ∧
      ((∀ v, tm.lookUpIndex v < tm.fLut.length ∧ tm.lookUp v = fresh.lookUp v) ↔
        ∀ formula ∈ earlier, highestSignalOf formula ≤ highestSignalOf last) := by
  obtain ⟨lc, hlc⟩ := hvalid last (by simp)
  obtain ⟨lut, hlength, hmake⟩ := makeTable_of_valid hlc
  have hhigh : highestSignalOf last = highestSignal lc.fCommands := by
    rw [highestSignalOf, hlc.1]
  have hle : highestSignal lc.fCommands ≤ 30 := hlc.2.1
  obtain ⟨before, m, hrun, hm, hmask, hn⟩ := foldlM_makeTable earlier
    (fun formula hf => hvalid formula (List.mem_append_left _ hf)) {} 0 (Nat.zero_le _) rfl
  have hmask' : addSignalMask (highestSignal lc.fCommands + 1) before.fSignalMask =
      addSignalMask (max m (highestSignal lc.fCommands + 1)) 0 := by
    rw [hmask, addSignalMask_addSignalMask _ _ (by omega) (by omega)]
  have hruns : (earlier ++ [last]).foldlM makeTable {} = .ok (made lut
      (highestSignal lc.fCommands + 1)
      (addSignalMask (highestSignal lc.fCommands + 1) before.fSignalMask)) := by
    rw [List.foldlM_append, hrun, ← hmake]
    exact bind_pure (before.makeTable last)
  refine ⟨_, _, hruns, hmake {}, ?_⟩
  have hbound := lookUpIndex_lt_iff (made lut (highestSignal lc.fCommands + 1) (addSignalMask
    (highestSignal lc.fCommands + 1) before.fSignalMask)) (by omega) (by omega) rfl hmask'
  rw [hhigh]
  constructor
  · intro h
    have hle := hbound.mp fun v => by
      have hv := (h v).1
      rwa [made_fLut, hlength] at hv
    exact ((hn _).mp (by omega)).2
  · intro h v
    have hle : m ≤ highestSignal lc.fCommands + 1 := (hn _).mpr ⟨Nat.zero_le _, h⟩
    refine ⟨?_, ?_⟩
    · have hv := hbound.mpr (by omega) v
      rwa [made_fLut, hlength]
    · rw [hmask', Nat.max_eq_right hle]

theorem valid_ofRpn {text : Text} (hrpn : text.take 3 = ['R', 'P', 'N'])
    (hsig : highestSignal (ofRpn text).fCommands ≤ 30) (hsafe : StackSafe (ofRpn text).fCommands) :
    ∃ lc, Valid text lc :=
  ⟨_, setFormula_rpn infixtorpn (Or.inl hrpn), hsig, hsafe⟩

/-- A larger formula after a smaller one. -/
theorem lookUp_after_history_iff_growing :
    ∃ tm fresh, (["RPN 0".toList] ++ ["RPN 3 1 &".toList]).foldlM makeTable {} = .ok tm ∧
      ({} : TriggerMap).makeTable "RPN 3 1 &".toList = .ok fresh ∧
      ((∀ v, tm.lookUpIndex v < tm.fLut.length ∧ tm.lookUp v = fresh.lookUp v) ↔
        ∀ formula ∈ ["RPN 0".toList],
          highestSignalOf formula ≤ highestSignalOf "RPN 3 1 &".toList) :=
  lookUp_after_history_iff _ _ fun formula hf => by
    simp only [List.cons_append, List.nil_append, List.mem_cons, List.not_mem_nil, or_false] at hf
    cases hf with
    | inl heq =>
        subst heq
        exact valid_ofRpn (by decide) (by decide) (by decide)
    | inr heq =>
        subst heq
        exact valid_ofRpn (by decide) (by decide) (by decide)

/-- The mask of the formula `1` takes the pattern 2 past the two cells that the
table of the formula `0` has. -/
theorem stale_mask_reads_past_table :
    ∃ tm, ["RPN 1".toList, "RPN 0".toList].foldlM makeTable {} = .ok tm ∧
      tm.fLut.length = 2 ∧ tm.lookUpIndex 2 = 2 :=
  ⟨_, rfl, rfl, rfl⟩

end TriggerMap

end Userworks
