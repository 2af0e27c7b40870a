import Userworks.Exam6.TriggeredFrames
import Userworks.LogicFilter.FilteredRuns

/-!
The filter of exam6 from its options to the time frames that it sends. The formula
is written in postfix notation. `InitTask` sets the engine up anew, whatever was set
up before, and no frame leaves a trace in it, so what is sent for a frame is what
the options mean for that frame alone.
-/
namespace Userworks
namespace Exam6

open LogicFilter (HeartbeatMessage SubFrame frameParts)
open TimeFrameBuilder (totalLength)

namespace FltTrig

/-- The options that `InitTask` reads, numbers already converted. -/
structure Options where
  id : BitVec 32
  splitMethod : Int
  dataSuppress : Text
  removeHB : Text
  triggerSignals : Text
  triggerFormula : Text

/-- The engine is used again. A new time region is not initialised: it holds `contents`. -/
def initTask (f : FltTrig) (contents : List (BitVec 32)) (o : Options) : Except Fault FltTrig := do
  let fTrig := (f.fTrig.setTimeRegion (1024 * 128) contents).clearEntry
  let signals := SignalParser.parsing o.triggerSignals
  let fTrig ← signals.foldlM LogicFilter.enterSignal { fTrig with fMarkLen := 10 }
  let fTMap ← fTrig.fTMap.makeTable o.triggerFormula
  return {
    fSplitMethod := o.splitMethod
    fId := o.id
    fTrig := { fTrig with fTMap }
    fIsDataSuppress := o.dataSuppress = "true".toList
    fIsRemoveHB := o.removeHB = "true".toList }

/-- The device runs on one time frame after the other. -/
def run (f : FltTrig) : List (Clock × List Bytes) → Except Fault (FltTrig × List (List Bytes))
  | [] => .ok (f, [])
  | (now, inParts) :: frames => do
      let (f, outParts) ← f.conditionalRun now inParts
      let (f, sent) ← f.run frames
      return (f, outParts :: sent)

end FltTrig

/-! ### The configuration -/

/-- An expression over the signals up to 30 in postfix notation, with any number of blanks
between its words. -/
structure WritesPostfix (text : Text) (e : Expr) : Prop where
  head : text.take 3 = ['R', 'P', 'N'] ∨ text.take 3 = ['r', 'p', 'n']
  words : (((text.drop 3).splitOn ' ').filter fun word => word ≠ []) = e.words
  written : e.Written
  small : ∀ i ∈ e.signals, i ≤ 30

theorem foldl_filter_nonempty (words : List Text) (lc : LogiCalc) :
    words.foldl (fun lc word => if word.length > 0 then lc.comPushBack word else lc) lc =
      (words.filter fun word => word ≠ []).foldl LogiCalc.comPushBack lc := by
  induction words generalizing lc with
  | nil => rfl
  | cons word words ih =>
      cases word with
      | nil => exact ih lc
      | cons c word => exact ih _

theorem WritesPostfix.setFormula {text : Text} {e : Expr} (h : WritesPostfix text e) :
    LogiCalc.setFormula infixtorp text = .ok { fCommands := e.words, fSigMax := e.sigMax } := by
  have hmax := e.sigMax_le 30 h.small
  rw [LogiCalc.setFormula_rpn infixtorp h.head, LogiCalc.ofRpn, foldl_filter_nonempty, h.words,
    LogiCalc.foldl_comPushBack e h.written (by omega)]
  simp

/-- The table of a formula does not depend on the one before. -/
theorem WritesPostfix.makeTable {text : Text} {e : Expr} (h : WritesPostfix text e)
    (tm : TriggerMap) :
    ∃ tm', tm.makeTable text = .ok tm' ∧
      ∀ v, tm'.lookUp v = (e.eval v && decide (v.toNat < 2 ^ (e.sigMax + 1))) := by
  have hmax := e.sigMax_le 30 h.small
  have hvalue : ∀ v, LogiCalc.calcFormula { fCommands := e.words, fSigMax := e.sigMax } v =
      .ok (e.eval v) := by
    intro v
    rw [LogiCalc.calcFormula, LogiCalc.run_words e h.written (by omega)]
    rfl
  obtain ⟨tm', hmake, hlook⟩ := TriggerMap.lookUp_makeTable h.setFormula hmax hvalue
  refine ⟨tm', ?_, hlook⟩
  rw [← hmake, TriggerMap.makeTable, TriggerMap.makeTable,
    buildTable_eq_map h.setFormula hmax hvalue, buildTable_eq_map h.setFormula hmax hvalue]

/-- What the options select. -/
def selection (o : FltTrig.Options) (e : Expr) : Selection where
  signals := signalsOf (SignalParser.parsing o.triggerSignals)
  used := e.sigMax + 1
  value := e.eval

namespace FltTrig

/-- A device as `InitTask` leaves it. -/
structure SetUpBy (o : Options) (e : Expr) (f : FltTrig) : Prop where
  id : f.fId = o.id
  splitMethod : f.fSplitMethod = o.splitMethod
  dataSuppress : f.fIsDataSuppress = decide (o.dataSuppress = "true".toList)
  removeHB : f.fIsRemoveHB = decide (o.removeHB = "true".toList)
  looksFor : LooksFor (selection o e) f.fTrig

theorem initTask_setUpBy (f : FltTrig) {o : Options} {e : Expr}
    (hformula : WritesPostfix o.triggerFormula e)
    (hfew : (signalsOf (SignalParser.parsing o.triggerSignals)).length ≤ 32)
    (contents : List (BitVec 32)) :
    ∃ f', f.initTask contents o = .ok f' ∧ SetUpBy o e f' := by
  have hpos : 0 < (BitVec.ofNat 32 131072).toNat := by decide
  obtain ⟨t, hreg, hready, hconfig⟩ :=
    Trigger.register_ready { f.fTrig with fMarkLen := 10 } hfew hpos contents
  obtain ⟨tm, hmake, htable⟩ := hformula.makeTable t.fTMap
  have hregister : (SignalParser.parsing o.triggerSignals).foldlM LogicFilter.enterSignal
      { (f.fTrig.setTimeRegion (1024 * 128) contents).clearEntry with fMarkLen := 10 } = .ok t :=
    (registerSignals_eq (Trigger.setTimeRegion { f.fTrig with fMarkLen := 10 } (1024 * 128)
      contents) _).trans hreg
  have hlooks : LooksFor (selection o e) { t with fTMap := tm } :=
    ⟨⟨⟨hready.aligned.ch, hready.aligned.delay, hready.aligned.bit, hready.aligned.counts⟩,
      hready.room, hready.alloc, hready.pos⟩, hconfig.size, hconfig.markLen, htable⟩
  refine ⟨{
    fSplitMethod := o.splitMethod
    fId := o.id
    fTrig := { t with fTMap := tm }
    fIsDataSuppress := o.dataSuppress = "true".toList
    fIsRemoveHB := o.removeHB = "true".toList }, ?_, ⟨rfl, rfl, rfl, rfl, hlooks⟩⟩
  simp only [initTask, hregister, bind, Except.bind, hmake]
  rfl

end FltTrig

/-! ### Runs -/

/-- A time frame of less than 4 GiB with a sub time frame, and the clock at its run. -/
structure ReceivedFrame where
  now : FltTrig.Clock
  header : TimeFrame.Header
  magic : header.magic = TimeFrame.MAGIC
  subFrames : List SubFrame
  nonempty : subFrames ≠ []
  small : totalLength (frameParts header subFrames) < 2 ^ 32

namespace FltTrig

/-- The input of a run. -/
def received (frames : List ReceivedFrame) : List (Clock × List Bytes) :=
  frames.map fun frame => (frame.now, frameParts frame.header frame.subFrames)

/-- Over every sequence of time frames the device sends what the selection means for each. -/
theorem run_looksFor {s : Selection} {f : FltTrig} (h : LooksFor s f.fTrig)
    (hsuppress : f.fIsDataSuppress = true) (hkeep : f.fIsRemoveHB = false)
    (frames : List ReceivedFrame) :
    ∃ fTrig, f.run (received frames) = .ok ({ f with fTrig := fTrig },
      frames.map fun frame => f.sentFrame s frame.subFrames frame.now frame.header) := by
  induction frames generalizing f with
  | nil => exact ⟨f.fTrig, rfl⟩
  | cons frame frames ih =>
      obtain ⟨fTrig, hframe, hlooks⟩ := conditionalRun_sentFrame hkeep frame.magic frame.nonempty h
        hsuppress frame.small frame.now
      obtain ⟨fTrig', hframes⟩ := @ih { f with fTrig := fTrig } hlooks hsuppress hkeep
      refine ⟨fTrig', ?_⟩
      rw [received, List.map_cons, ← received, run]
      simp only [hframe, bind, Except.bind, hframes]
      rfl

/-- A device that suppresses data and keeps heartbeats is set up by its options, whatever
it did before. Over every sequence of time frames it then sends, for each of them, the
heartbeats and the data messages of the rows in which the formula turns true, where it is
false while a signal above its own is on. -/
theorem run_of_options (f : FltTrig) {o : Options} {e : Expr}
    (hformula : WritesPostfix o.triggerFormula e)
    (hfew : (signalsOf (SignalParser.parsing o.triggerSignals)).length ≤ 32)
    (hsuppress : o.dataSuppress = "true".toList) (hkeep : o.removeHB ≠ "true".toList)
    (contents : List (BitVec 32)) :
    ∃ f', f.initTask contents o = .ok f' ∧ f'.fId = o.id ∧ f'.fSplitMethod = o.splitMethod ∧
      ∀ frames : List ReceivedFrame, ∃ f'',
        f'.run (received frames) = .ok (f'', frames.map fun frame =>
          f'.sentFrame (selection o e) frame.subFrames frame.now frame.header) := by
  obtain ⟨f', hinit, hset⟩ := initTask_setUpBy f hformula hfew contents
  refine ⟨f', hinit, hset.id, hset.splitMethod, fun frames => ?_⟩
  obtain ⟨fTrig, hrun⟩ := run_looksFor hset.looksFor
    (hset.dataSuppress.trans (decide_eq_true hsuppress))
    (hset.removeHB.trans (decide_eq_false hkeep)) frames
  exact ⟨_, hrun⟩

def twoSignals : Options where
  id := 1
  splitMethod := 1
  dataSuppress := "true".toList
  removeHB := "false".toList
  triggerSignals := "(3232236201 0 0) (3232236201 1 0)".toList
  triggerFormula := "RPN 0 1 &".toList

theorem writesPostfix_twoSignals :
    WritesPostfix twoSignals.triggerFormula (.conj (.signal ['0']) (.signal ['1'])) where
  head := Or.inl rfl
  words := by decide
  written := fun numeral hnumeral => by
    rcases List.mem_pair.mp hnumeral with rfl | rfl <;> exact ⟨by decide, rfl⟩
  small := by decide

theorem run_of_options_twoSignals :
    ∃ f', FltTrig.initTask { fTrig := quietTrigger } [] twoSignals = .ok f' ∧ f'.fId = 1 ∧
      f'.fSplitMethod = 1 ∧ ∀ frames : List ReceivedFrame, ∃ f'',
        f'.run (received frames) = .ok (f'', frames.map fun frame =>
          f'.sentFrame (selection twoSignals (.conj (.signal ['0']) (.signal ['1'])))
            frame.subFrames frame.now frame.header) :=
  run_of_options { fTrig := quietTrigger } writesPostfix_twoSignals (by decide) rfl (by decide) []

end FltTrig
end Exam6
end Userworks
