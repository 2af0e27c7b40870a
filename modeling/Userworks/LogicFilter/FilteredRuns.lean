import Userworks.LogicFilter.ConditionalRun
import Userworks.LogicFilter.SignalNesting
import Userworks.LogicFilter.TriggerCompiler
import Userworks.LogicFilter.TriggerExpressions
import Userworks.LogicFilter.TriggerMeaning

/-!
The filter device from its configuration to the time frames it sends. A trigger that
`InitTask` has made stays as it is configured over any number of time frames, so what
is sent for a frame is what the texts mean for that frame alone.
-/
namespace Userworks

open LogicFilter ExprParser SignalParser

/-- The signal that a group of numbers stands for. -/
def signalOf : List (BitVec 32) → Option Entry
  | fem :: ch :: offset :: _ => some ⟨fem, ch.toInt, offset.toInt⟩
  | _ => none

def signalsOf (groups : List (List (BitVec 32))) : List Entry := groups.filterMap signalOf

theorem registerSignals_eq {Map : Type} (trg : Trigger Map) (groups : List (List (BitVec 32))) :
    registerSignals trg groups = trg.register (signalsOf groups) := by
  have hfold : ∀ t : Trigger Map, groups.foldlM enterSignal t =
      (signalsOf groups).foldlM (fun t e => t.entry e.module e.ch e.offset) t := by
    induction groups with
    | nil => exact fun _ => rfl
    | cons v groups ih =>
        intro t
        match v with
        | [] | [_] | [_, _] => exact ih t
        | fem :: ch :: offset :: _ =>
            exact bind_congr fun t' => ih t'
  exact hfold trg.clearEntry

/-- A typed trigger whose text writes an expression over the signals up to 30. -/
structure Formula where
  trigger : TrgExpression
  expr : Expr
  isExpr : IsExpr trigger.expr
  tokens : List Text
  spaced : Spaced trigger.expr tokens
  derived : Derives .or tokens expr
  small : ∀ i ∈ expr.signals, i ≤ 30

theorem Formula.makeTable (m : Formula) :
    ∃ tm, ({} : TriggerMap).makeTable m.trigger.expr = .ok tm ∧
      ∀ v, tm.lookUp v = m.expr.eval v := by
  have hmax : m.expr.sigMax ≤ 30 := m.expr.sigMax_le 30 m.small
  have hwritten : m.expr.Written := m.derived.written (by simp)
  have hset := LogiCalc.setFormula_infix m.spaced m.derived (by omega)
  have hvalue : ∀ v, LogiCalc.calcFormula
      { fCommands := m.expr.words, fSigMax := m.expr.sigMax } v = .ok (m.expr.eval v) := by
    intro v
    rw [LogiCalc.calcFormula, LogiCalc.run_words m.expr hwritten (by omega)]
    rfl
  obtain ⟨tm, hmake, hlook⟩ := TriggerMap.lookUp_makeTable hset hmax hvalue
  refine ⟨tm, hmake, fun v => ?_⟩
  rw [(hlook v).2]
  apply m.expr.eval_congr
  intro i hi
  have hle : i < m.expr.sigMax + 1 := Nat.lt_succ_of_le (m.expr.le_sigMax i hi)
  rw [BitVec.getLsbD_ofNat, Nat.testBit_mod_two_pow, BitVec.testBit_toNat]
  simp [hle, show i < 32 by omega]

namespace LogicFilter

/-- A trigger that answers for a formula over signals, whatever its time region holds. -/
structure Configured (width : Int) (es : List Entry) (t : TypedTrigger) (m : Formula) : Prop where
  type : t.fTriggerType = m.trigger.type
  ready : t.trg.Ready es
  size : t.trg.fTimeRegionSize = BitVec.ofNat 32 131072
  markLen : t.trg.fMarkLen = width
  table : ∀ v, t.trg.fTMap.lookUp v = m.expr.eval v

/-- The times in one row of segments at which a formula turns true. -/
noncomputable def meantTimes (width : Int) (es : List Entry) (m : Formula)
    (hbf : List HBFIndex) : List (BitVec 32) :=
  (risingEdges (fun time => m.expr.eval (signalPattern 131072 width es hbf time)) 131071).map
    (BitVec.ofNat 32)

/-- The rows of segments of a time frame. -/
def rowsOf (fSplitMethod : Int) (inParts : List Bytes) : List (List HBFIndex) :=
  (List.range (minBlockCount (makeBlockMap fSplitMethod inParts))).map
    (buildHBF (makeBlockMap fSplitMethod inParts) inParts)

noncomputable def meantBlock (o : Options) (es : List Entry) (now : Clock) (inParts : List Bytes)
    (m : Formula × Nat) : List Bytes :=
  let times := (rowsOf o.splitMethod inParts).map (meantTimes o.triggerWidth es m.1)
  (filterHeader o.id (now.sec m.2) (now.usec m.2) times now.elapse (timeFrameIdOf inParts)
    m.1.trigger.type).encode :: times.map fun v => trgTimeMessage v m.1.trigger.type

/-- What is sent for a time frame: its header with the new length, a block for each formula,
and everything else as it was. -/
noncomputable def meantOutput (o : Options) (es : List Entry) (ms : List Formula)
    (frame : Clock × List Bytes) : List Bytes :=
  let parts := ms.zipIdx.flatMap (meantBlock o es frame.1 frame.2) ++ frame.2.drop 1
  let size := (frame.2.headD []).length + (parts.map List.length).sum
  setLength (BitVec.ofNat 32 size) (frame.2.headD []) :: parts

/-! ### The configuration -/

theorem makeTrigger_configured (m : Formula) {groups : List (List (BitVec 32))}
    (hfew : (signalsOf groups).length ≤ 32) (width : Int) (contents : List (BitVec 32)) :
    ∃ t, makeTrigger groups width contents m.trigger = .ok t ∧
      Configured width (signalsOf groups) t m := by
  have hpos : 0 < (BitVec.ofNat 32 131072).toNat := by decide
  obtain ⟨trg, hreg, hready, hconfig⟩ :=
    Trigger.register_ready ({ fTMap := {} } : Trigger TriggerMap) hfew hpos contents
  obtain ⟨tm, hmake, htable⟩ := m.makeTable
  have hfresh : trg.fTMap = {} := hconfig.table
  refine ⟨{ trg := { trg with fTMap := tm, fMarkLen := width }, fTriggerType := m.trigger.type },
    ?_, ⟨rfl, ?_, hconfig.size, rfl, htable⟩⟩
  · have hregister : registerSignals
        (Trigger.setTimeRegion ({ fTMap := {} } : Trigger TriggerMap) (1024 * 128) contents)
        groups = .ok trg := (registerSignals_eq _ _).trans hreg
    simp only [makeTrigger, hregister, bind, Except.bind, hfresh, hmake]
    rfl
  · exact ⟨⟨hready.aligned.ch, hready.aligned.delay, hready.aligned.bit, hready.aligned.counts⟩,
      hready.room, hready.alloc, hready.pos⟩

theorem mapM_makeTrigger (ms : List Formula) {groups : List (List (BitVec 32))}
    (hfew : (signalsOf groups).length ≤ 32) (width : Int) (contents : Nat → List (BitVec 32))
    (start : Nat) :
    ∃ ts, ((ms.map Formula.trigger).zipIdx start).mapM
        (fun (expression, i) => makeTrigger groups width (contents i) expression) = .ok ts ∧
      List.Forall₂ (Configured width (signalsOf groups)) ts ms := by
  induction ms generalizing start with
  | nil => exact ⟨[], rfl, .nil⟩
  | cons m ms ih =>
      obtain ⟨t, ht, hconfigured⟩ := makeTrigger_configured m hfew width (contents start)
      obtain ⟨ts, hts, hall⟩ := ih (start + 1)
      refine ⟨t :: ts, ?_, .cons hconfigured hall⟩
      rw [List.map_cons, List.zipIdx_cons, List.mapM_cons]
      simp only [ht, hts, bind, Except.bind]
      rfl

/-! ### One time frame -/

section Frame

variable {width : Int} {es : List Entry} {t : TypedTrigger} {m : Formula}

theorem Configured.fHits (h : Configured width es t m) (hwidth : 0 ≤ width)
    (hshort : width / 2 < 131072) (hbf : List HBFIndex) :
    (t.trg.exec triggerCopy hbf).fHits = meantTimes width es m hbf := by
  have hnumbers := h.ready.exec_signalPattern (N := 131072) h.size (by decide)
    (by rw [h.markLen]; exact hwidth) (by rw [h.markLen]; exact_mod_cast hshort) hbf
  simp only [h.markLen, h.table] at hnumbers
  rw [meantTimes, ← hnumbers, List.map_map]
  exact (List.map_id'' (fun hit => BitVec.eq_of_toNat_eq (by simp)) _).symm

theorem execRows_fst (trg : Trigger TriggerMap) (fSplitMethod : Int) (inParts : List Bytes) :
    (execRows triggerCopy trg (makeBlockMap fSplitMethod inParts) inParts).1 =
      (rowsOf fSplitMethod inParts).foldl (Trigger.exec triggerCopy) trg := by
  rw [execRows, rowsOf, List.foldl_map]
  generalize List.range _ = rows
  generalize ([] : List (List (BitVec 32))) = times
  induction rows generalizing trg times with
  | nil => rfl
  | cons i rows ih => exact ih _ _

/-- A trigger gives the times of its formula and is configured as before. -/
theorem Configured.runTrigger (h : Configured width es t m) (hwidth : 0 ≤ width)
    (hshort : width / 2 < 131072) (fSplitMethod : Int) (inParts : List Bytes) :
    (LogicFilter.runTrigger fSplitMethod inParts t).2 =
        (rowsOf fSplitMethod inParts).map (meantTimes width es m) ∧
      Configured width es (LogicFilter.runTrigger fSplitMethod inParts t).1 m := by
  constructor
  · have hrun : (LogicFilter.runTrigger fSplitMethod inParts t).2 =
        triggerTimes triggerCopy fSplitMethod t.trg inParts := rfl
    rw [hrun, triggerTimes_eq_map h.ready, rowsOf, List.map_map]
    apply List.map_congr_left
    intro i _
    rw [h.fHits hwidth hshort, Function.comp_apply]
  · obtain ⟨hready, hconfig⟩ := h.ready.foldl_exec triggerCopy (rowsOf fSplitMethod inParts)
    rw [← execRows_fst] at hready hconfig
    refine ⟨h.type, hready, hconfig.size.trans h.size, hconfig.markLen.trans h.markLen, ?_⟩
    intro v
    exact (congrArg (fun tm : TriggerMap => tm.lookUp v) hconfig.table).trans (h.table v)

end Frame

/-- The device holds one trigger for each formula. -/
structure Holds (o : Options) (es : List Entry) (ms : List Formula) (f : LogicFilter) : Prop where
  id : f.fId = o.id
  splitMethod : f.fSplitMethod = o.splitMethod
  triggers : List.Forall₂ (Configured o.triggerWidth es) f.fTrig ms

theorem initTask_holds (o : Options) {ms : List Formula}
    (hexpressions : ListText o.triggerExpression (ms.map Formula.trigger))
    (hfew : (signalsOf (SignalParser.parsing o.triggerSignals)).length ≤ 32)
    (contents : Nat → List (BitVec 32)) :
    ∃ f, initTask contents o = .ok f ∧
      Holds o (signalsOf (SignalParser.parsing o.triggerSignals)) ms f := by
  have hread : ExprParser.parsing o.triggerExpression = .ok (ms.map Formula.trigger) := by
    rw [ExprParser.parsing, lineSeparation, separate_eq_segments]
    refine parsingLines_of_forall₂ (listText_lines hexpressions ?_) []
    intro t ht
    obtain ⟨m, -, rfl⟩ := List.mem_map.mp ht
    exact m.isExpr
  obtain ⟨ts, hts, hall⟩ := mapM_makeTrigger ms hfew o.triggerWidth contents 0
  refine ⟨{ fId := o.id, fSplitMethod := o.splitMethod, fTrig := ts }, ?_, ⟨rfl, rfl, hall⟩⟩
  simp only [initTask, hread, bind, Except.bind, hts]
  rfl

/-- A frame that the device can work on: there is a message behind the first one, and the
length has room in the first one. -/
def HasHeader (inParts : List Bytes) : Prop :=
  2 ≤ inParts.length ∧ 12 ≤ (inParts.headD []).length

section Run

variable {o : Options} {es : List Entry} {ms : List Formula}

theorem flatMap_blockOf (hwidth : 0 ≤ o.triggerWidth) (hshort : o.triggerWidth / 2 < 131072)
    (now : Clock) (inParts : List Bytes) {ts : List TypedTrigger} {ms : List Formula}
    (h : List.Forall₂ (Configured o.triggerWidth es) ts ms) (start : Nat) :
    ((ts.map (runTrigger o.splitMethod inParts)).zipIdx start).flatMap
        (blockOf o.id now (timeFrameIdOf inParts)) =
      (ms.zipIdx start).flatMap (meantBlock o es now inParts) := by
  induction h generalizing start with
  | nil => rfl
  | cons ht _ ih =>
      obtain ⟨htimes, hconfigured⟩ := ht.runTrigger hwidth hshort o.splitMethod inParts
      rw [List.map_cons, List.zipIdx_cons, List.zipIdx_cons, List.flatMap_cons, List.flatMap_cons,
        ih, blockOf, htimes, hconfigured.type]
      rfl

theorem Holds.conditionalRun {f : LogicFilter} (h : Holds o es ms f)
    (hwidth : 0 ≤ o.triggerWidth) (hshort : o.triggerWidth / 2 < 131072) (now : Clock)
    {inParts : List Bytes} (hparts : HasHeader inParts) :
    ∃ f', f.conditionalRun now inParts = .ok (f', meantOutput o es ms (now, inParts)) ∧
      Holds o es ms f' := by
  obtain ⟨hlength, hhead⟩ := hparts
  obtain ⟨head, rest, rfl⟩ :=
    List.exists_cons_of_ne_nil (List.ne_nil_of_length_pos (Nat.lt_of_lt_of_le Nat.two_pos hlength))
  have hrest : rest ≠ [] := by
    rintro rfl
    simp at hlength
  refine ⟨{ f with fTrig := f.fTrig.map fun t => (runTrigger f.fSplitMethod (head :: rest) t).1 },
    ?_, ⟨h.id, h.splitMethod, ?_⟩⟩
  · have hblocks : f.blocksOf now (head :: rest) =
        ms.zipIdx.flatMap (meantBlock o es now (head :: rest)) := by
      rw [blocksOf, h.splitMethod, h.id]
      exact flatMap_blockOf hwidth hshort now _ h.triggers 0
    rw [@conditionalRun_eq f now head rest hhead hrest, hblocks, totalSize_eq]
    rfl
  · rw [List.forall₂_map_left_iff]
    exact h.triggers.imp fun t m ht => (ht.runTrigger hwidth hshort f.fSplitMethod _).2

theorem Holds.run {f : LogicFilter} (h : Holds o es ms f) (hwidth : 0 ≤ o.triggerWidth)
    (hshort : o.triggerWidth / 2 < 131072) {frames : List (Clock × List Bytes)}
    (hparts : ∀ frame ∈ frames, HasHeader frame.2) :
    ∃ f', f.run frames = .ok (f', frames.map (meantOutput o es ms)) := by
  induction frames generalizing f with
  | nil => exact ⟨f, rfl⟩
  | cons frame frames ih =>
      rw [List.forall_mem_cons] at hparts
      obtain ⟨f₁, hframe, hholds⟩ := h.conditionalRun hwidth hshort frame.1 hparts.1
      obtain ⟨f₂, hframes⟩ := ih hholds hparts.2
      refine ⟨f₂, ?_⟩
      rw [LogicFilter.run]
      simp only [hframe, bind, Except.bind, hframes]
      rfl

end Run

/-- A coincidence of two signals. -/
def coincidence : Formula where
  trigger := { type := 0xaa000001, expr := "0 & 1".toList }
  expr := .conj (.signal ['0']) (.signal ['1'])
  isExpr := ⟨by decide, by decide, by decide, by decide⟩
  tokens := [['0'], ['&'], ['1']]
  spaced := @Spaced.token [] ['0'] _ _ rfl <| @Spaced.token [' '] ['&'] _ _ rfl <|
    @Spaced.token [' '] ['1'] [] _ rfl <| .finish rfl
  derived := @Derives.or [['0'], ['&'], ['1']] [] _ _
    (@Derives.and [['0']] [['&'], ['1']] _ _ (.operand (.digits ⟨by decide, rfl⟩))
      (@Derives.andMore [['1']] [] _ _ _ (.operand (.digits ⟨by decide, rfl⟩)) .andEnd))
    .orEnd
  small := by decide

def coincidenceOptions : Options where
  id := 1
  splitMethod := 1
  triggerSignals := "(32 5 0) (33 6 -2)".toList
  triggerExpression := "0xaa000001:0 & 1;".toList
  triggerWidth := 10

end LogicFilter
end Userworks
