import Userworks.LogicFilter.LogiCalc
import Mathlib.Data.Nat.Bitwise

/-!
The look-up table of a trigger formula. `MakeTable` runs the calculator on every
pattern of the signals in use; `LookUp` reads the cell of a pattern, which the
newer copy cuts to those signals by a mask and the copy under exam6 does not.

`fLut` is a `std::vector<bool>`, whose subscript is unchecked. `lookUp` gives
false outside it, and `lookUpIndex` is the cell it would touch.
-/
namespace Userworks

/-- `std::vector<bool>::resize`. -/
def resizeLut (size : Nat) (lut : List Bool) : List Bool :=
  lut.take size ++ List.replicate (size - lut.length) false

/-- The loop that writes the value of every pattern below the table size. -/
def fillLut (lc : LogiCalc) (size : Nat) (lut : List Bool) : Except Fault (List Bool) :=
  (List.range size).foldlM
    (fun lut i => do return lut.set i (← lc.calcFormula (BitVec.ofNat 32 i))) lut

/-- The common part of both copies of `MakeTable`: the number of signals and the
new table. Shifting an `int` by 32 is undefined. -/
def buildTable (compile : Text → Except Fault Ast) (formula : Text) (lut : List Bool) :
    Except Fault (Nat × List Bool) := do
  let lc ← LogiCalc.setFormula compile formula
  let fNsignal := lc.fSigMax + 1
  if fNsignal < 32 then
    let fMapSize := 1 <<< fNsignal
    return (fNsignal, ← fillLut lc fMapSize (resizeLut fMapSize lut))
  else .error .undefined

/-- The loop that adds the bits of the signals in use to the mask. -/
def addSignalMask (fNsignal : Nat) (mask : BitVec 32) : BitVec 32 :=
  (List.range fNsignal).foldl (fun mask i => mask ||| 1#32 <<< i) mask

structure TriggerMap where
  fLut : List Bool := []
  fNsignal : Nat := 0
  fSignalMask : BitVec 32 := 0
  fMapSize : Nat := 0

namespace TriggerMap

def makeTable (tm : TriggerMap) (formula : Text) : Except Fault TriggerMap := do
  let (fNsignal, fLut) ← buildTable infixtorpn formula tm.fLut
  return {
    fLut
    fNsignal
    fSignalMask := addSignalMask fNsignal tm.fSignalMask
    fMapSize := 1 <<< fNsignal }

def lookUpIndex (tm : TriggerMap) (val : BitVec 32) : Nat :=
  if val.toNat < tm.fMapSize then val.toNat else (val &&& tm.fSignalMask).toNat

def lookUp (tm : TriggerMap) (val : BitVec 32) : Bool :=
  tm.fLut.getD (tm.lookUpIndex val) false

end TriggerMap

/-- The copy under exam6 has no mask. -/
structure Exam6.TriggerMap where
  fLut : List Bool := []
  fNsignal : Nat := 0
  fMapSize : Nat := 0

namespace Exam6.TriggerMap

def makeTable (tm : TriggerMap) (formula : Text) : Except Fault TriggerMap := do
  let (fNsignal, fLut) ← buildTable infixtorp formula tm.fLut
  return { fLut, fNsignal, fMapSize := 1 <<< fNsignal }

def lookUp (tm : TriggerMap) (val : BitVec 32) : Bool :=
  if val.toNat < tm.fMapSize then tm.fLut.getD val.toNat false else false

end Exam6.TriggerMap

theorem length_resizeLut (size : Nat) (lut : List Bool) :
    (resizeLut size lut).length = size := by
  simp only [resizeLut, List.length_append, List.length_take, List.length_replicate]
  omega

/-- A calculator that is defined on every pattern fills the whole table, whatever
the cells held before. -/
theorem fillLut_eq_map (lc : LogiCalc) (value : BitVec 32 → Bool)
    (h : ∀ v, lc.calcFormula v = .ok (value v)) (size : Nat) (lut : List Bool)
    (hlength : lut.length = size) :
    fillLut lc size lut = .ok ((List.range size).map fun i => value (BitVec.ofNat 32 i)) := by
  -- After `n` rounds the first `n` cells are new and the others are as before.
  have hrounds : ∀ n ≤ size, (List.range n).foldlM
      (fun lut i => do return lut.set i (← lc.calcFormula (BitVec.ofNat 32 i))) lut =
      (.ok ((List.range n).map (fun i => value (BitVec.ofNat 32 i)) ++ lut.drop n) :
        Except Fault (List Bool)) := by
    intro n hn
    induction n with
    | zero => rfl
    | succ n ih =>
        rw [List.range_succ, List.foldlM_append, ih (by omega)]
        have hcell : lut.drop n = lut[n] :: lut.drop (n + 1) :=
          List.drop_eq_getElem_cons (by omega)
        simp only [List.foldlM_cons, List.foldlM_nil, bind, Except.bind, h, pure, Except.pure,
          hcell, List.map_append, List.map_cons, List.map_nil, List.append_assoc,
          List.singleton_append]
        rw [List.set_append_right _ _ (by simp)]
        simp only [List.length_map, List.length_range, Nat.sub_self, List.set_cons_zero]
  have hall := hrounds size (Nat.le_refl size)
  rw [List.drop_of_length_le (by omega), List.append_nil] at hall
  exact hall

/-- The mask built over `n` signals keeps what it held and adds the low `n` bits. -/
theorem getLsbD_addSignalMask (mask : BitVec 32) (n j : Nat) (hn : n ≤ 32) :
    (addSignalMask n mask).getLsbD j = (mask.getLsbD j || decide (j < n)) := by
  induction n with
  | zero => simp [addSignalMask]
  | succ n ih =>
      have hstep : addSignalMask (n + 1) mask = addSignalMask n mask ||| 1#32 <<< n := by
        rw [addSignalMask, List.range_succ, List.foldl_append]
        rfl
      rw [hstep, BitVec.getLsbD_or, ih (by omega)]
      have hbit : (1#32 <<< n).getLsbD j = decide (j = n) := by
        rw [BitVec.getLsbD_shiftLeft, BitVec.getLsbD_one]
        by_cases hj : j = n
        · subst hj
          simp [show j < 32 by omega]
        · simp only [hj, decide_false, Bool.and_eq_false_iff, decide_eq_false_iff_not,
            Bool.not_eq_false', decide_eq_true_iff]
          omega
      rw [hbit, Bool.or_assoc, ← Bool.decide_or]
      congr 2
      exact propext (by omega)

theorem addSignalMask_zero_toNat (n : Nat) (hn : n ≤ 32) :
    (addSignalMask n 0).toNat = 2 ^ n - 1 := by
  apply Nat.eq_of_testBit_eq
  intro j
  rw [BitVec.testBit_toNat, getLsbD_addSignalMask _ _ _ hn, Nat.testBit_two_pow_sub_one]
  simp

/-- A pattern above the table is cut to as many bits as the mask holds. -/
theorem TriggerMap.lookUpIndex_of_mask {n m : Nat} (tm : TriggerMap) (hm : m ≤ 32)
    (hsize : tm.fMapSize = 2 ^ n) (hmask : tm.fSignalMask = addSignalMask m 0) (v : BitVec 32) :
    tm.lookUpIndex v = if v.toNat < 2 ^ n then v.toNat else v.toNat % 2 ^ m := by
  rw [lookUpIndex, hsize, hmask, BitVec.toNat_and, addSignalMask_zero_toNat m hm,
    Nat.and_two_pow_sub_one_eq_mod]

section Table

variable {text : Text} {lc : LogiCalc} {value : BitVec 32 → Bool}

/-- A calculator that is defined on every pattern fills the table with its values,
whatever table stood there before. -/
theorem buildTable_eq_map {compile : Text → Except Fault Ast}
    (hset : LogiCalc.setFormula compile text = .ok lc) (hsig : lc.fSigMax ≤ 30)
    (hvalue : ∀ v, lc.calcFormula v = .ok (value v)) (lut : List Bool) :
    buildTable compile text lut = .ok (lc.fSigMax + 1,
      (List.range (2 ^ (lc.fSigMax + 1))).map fun i => value (BitVec.ofNat 32 i)) := by
  rw [buildTable, hset]
  simp only [bind, Except.bind, pure, Except.pure, Nat.one_shiftLeft]
  rw [if_pos (by omega), fillLut_eq_map lc value hvalue _ _ (length_resizeLut _ _)]

/-- The table, read through the mask, answers with the value of the pattern cut to
the signals in use. -/
theorem TriggerMap.lookUp_makeTable (hset : LogiCalc.setFormula infixtorpn text = .ok lc)
    (hsig : lc.fSigMax ≤ 30) (hvalue : ∀ v, lc.calcFormula v = .ok (value v)) :
    ∃ tm, ({} : TriggerMap).makeTable text = .ok tm ∧ ∀ v,
      tm.lookUpIndex v < tm.fLut.length ∧
      tm.lookUp v = value (BitVec.ofNat 32 (v.toNat % 2 ^ (lc.fSigMax + 1))) := by
  have hbuild := buildTable_eq_map hset hsig hvalue []
  generalize hn : lc.fSigMax + 1 = n at hbuild ⊢
  refine ⟨_, by rw [makeTable, hbuild]; rfl, ?_⟩
  intro v
  have hindex : ∀ lut, lookUpIndex
      { fLut := lut, fNsignal := n, fSignalMask := addSignalMask n 0,
        fMapSize := 1 <<< n } v = v.toNat % 2 ^ n := by
    intro lut
    rw [lookUpIndex_of_mask _ (by omega) (Nat.one_shiftLeft n) rfl]
    split
    · rw [Nat.mod_eq_of_lt (by assumption)]
    · rfl
  have hlt : v.toNat % 2 ^ n < 2 ^ n := Nat.mod_lt _ (Nat.two_pow_pos n)
  refine ⟨?_, ?_⟩
  · rw [hindex]
    simpa using hlt
  · rw [lookUp, hindex]
    simp [List.getD_eq_getElem?_getD, hlt]

/-- The table of the copy under exam6 is cut off above the signals in use. -/
theorem Exam6.TriggerMap.lookUp_makeTable
    (hset : LogiCalc.setFormula infixtorp text = .ok lc) (hsig : lc.fSigMax ≤ 30)
    (hvalue : ∀ v, lc.calcFormula v = .ok (value v)) :
    ∃ tm, ({} : Exam6.TriggerMap).makeTable text = .ok tm ∧
      ∀ v, tm.lookUp v = (value v && decide (v.toNat < 2 ^ (lc.fSigMax + 1))) := by
  have hbuild := buildTable_eq_map hset hsig hvalue []
  generalize lc.fSigMax + 1 = n at hbuild ⊢
  refine ⟨_, by rw [makeTable, hbuild]; rfl, ?_⟩
  intro v
  by_cases hv : v.toNat < 2 ^ n
  · simp [lookUp, Nat.one_shiftLeft, hv, List.getD_eq_getElem?_getD]
  · simp [lookUp, Nat.one_shiftLeft, hv]

end Table

end Userworks
