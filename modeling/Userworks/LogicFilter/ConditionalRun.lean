import Userworks.LogicFilter.ExprParser
import Userworks.LogicFilter.FilterMessage
import Userworks.LogicFilter.TriggerDecision
import Userworks.TriggerView.TriggerSources

/-!
The filter device. `InitTask` makes a trigger for each expression of the
configuration. `ConditionalRun` puts one filter block for each trigger between the
header of a time frame and its sub time frames, and brings the length in the header
up to date.
-/
namespace Userworks

/-- A trigger with the type that it is given. -/
structure TypedTrigger where
  trg : Trigger TriggerMap
  fTriggerType : BitVec 32

structure LogicFilter where
  fId : BitVec 32 := 0
  fSplitMethod : Int := 2
  fTrig : List TypedTrigger := []

namespace LogicFilter

/-- The options that `InitTask` reads, numbers already converted. -/
structure Options where
  id : BitVec 32
  splitMethod : Int
  triggerSignals : Text
  triggerExpression : Text
  triggerWidth : Int

/-- A new time region is not initialised: it holds `contents`. -/
def makeTrigger (signals : List (List (BitVec 32))) (window_width : Int)
    (contents : List (BitVec 32)) (expression : ExprParser.TrgExpression) :
    Except Fault TypedTrigger := do
  let trg : Trigger TriggerMap := Trigger.setTimeRegion { fTMap := {} } (1024 * 128) contents
  let trg ← registerSignals trg signals
  let fTMap ← TriggerMap.makeTable trg.fTMap expression.expr
  return { trg := { trg with fTMap, fMarkLen := window_width }, fTriggerType := expression.type }

def initTask (contents : Nat → List (BitVec 32)) (o : Options) : Except Fault LogicFilter := do
  let signals := SignalParser.parsing o.triggerSignals
  let expressions ← ExprParser.parsing o.triggerExpression
  let fTrig ← expressions.zipIdx.mapM fun (expression, i) =>
    makeTrigger signals o.triggerWidth (contents i) expression
  return { fId := o.id, fSplitMethod := o.splitMethod, fTrig }

/-- What the clock shows: the time that the triggers took, and the time of day for each block. -/
structure Clock where
  elapse : BitVec 32
  sec : Nat → BitVec 64
  usec : Nat → BitVec 64

/-- The number of the time frame, from the last message that begins like a time frame header. -/
def timeFrameIdOf (inParts : List Bytes) : BitVec 32 :=
  inParts.foldl (fun tf_tf_id msg =>
    if field 8 0 msg = TimeFrame.MAGIC then (TimeFrame.Header.decode msg).timeFrameId
    else tf_tf_id) 0

/-- `tfHeader->length = tf_len` in a message that holds the field. -/
def setLength (tf_len : BitVec 32) (msg : Bytes) : Bytes :=
  msg.take 8 ++ (put 4 tf_len ++ msg.drop 12)

def totalSize (outParts : List Bytes) : BitVec 32 :=
  outParts.foldl (fun tf_len msg => tf_len + BitVec.ofNat 32 msg.length) 0

/-- The round of one trigger: its trigger times are found in all rows of the block map. -/
def runTrigger (fSplitMethod : Int) (inParts : List Bytes) (t : TypedTrigger) :
    TypedTrigger × List (List (BitVec 32)) :=
  let (trg, trg_tdc) := execRows triggerCopy t.trg (makeBlockMap fSplitMethod inParts) inParts
  ({ t with trg }, trg_tdc)

/-- The round of one trigger in the loop that adds the filter blocks. -/
def addBlockOf (fId : BitVec 32) (now : Clock) (tf_id : BitVec 32) (outParts : List Bytes)
    (td : (TypedTrigger × List (List (BitVec 32))) × Nat) : List Bytes :=
  (addFilterMessage fId (now.sec td.2) (now.usec td.2) outParts td.1.2 now.elapse tf_id
    td.1.1.fTriggerType).1

/-- The messages are sent as they are returned here. The length is written into the first
one without a check. -/
def conditionalRun (f : LogicFilter) (now : Clock) (inParts : List Bytes) :
    Except Fault (LogicFilter × List Bytes) :=
  if inParts.length < 2 then .error .assertion
  else if (inParts.headD []).length < 12 then .error .undefined
  else
    let trgdata := f.fTrig.map (runTrigger f.fSplitMethod inParts)
    let outParts := trgdata.zipIdx.foldl (addBlockOf f.fId now (timeFrameIdOf inParts))
      (inParts.take 1)
    let outParts := outParts ++ inParts.drop 1
    .ok ({ f with fTrig := trgdata.map (·.1) },
      outParts.modify 0 (setLength (totalSize outParts)))

/-- The device runs on one time frame after the other. -/
def run (f : LogicFilter) : List (Clock × List Bytes) →
    Except Fault (LogicFilter × List (List Bytes))
  | [] => .ok (f, [])
  | (now, inParts) :: frames => do
      let (f, outParts) ← f.conditionalRun now inParts
      let (f, sent) ← f.run frames
      return (f, outParts :: sent)

/-! ### What a run makes of a time frame -/

/-- The block that a trigger adds. -/
def blockOf (fId : BitVec 32) (now : Clock) (tf_id : BitVec 32)
    (td : (TypedTrigger × List (List (BitVec 32))) × Nat) : List Bytes :=
  (filterHeader fId (now.sec td.2) (now.usec td.2) td.1.2 now.elapse tf_id
    td.1.1.fTriggerType).encode :: td.1.2.map fun v => trgTimeMessage v td.1.1.fTriggerType

def blocksOf (f : LogicFilter) (now : Clock) (inParts : List Bytes) : List Bytes :=
  (f.fTrig.map (runTrigger f.fSplitMethod inParts)).zipIdx.flatMap
    (blockOf f.fId now (timeFrameIdOf inParts))

theorem foldl_addBlockOf (fId : BitVec 32) (now : Clock) (tf_id : BitVec 32)
    (tds : List ((TypedTrigger × List (List (BitVec 32))) × Nat)) (outParts : List Bytes) :
    tds.foldl (addBlockOf fId now tf_id) outParts =
      outParts ++ tds.flatMap (blockOf fId now tf_id) := by
  induction tds generalizing outParts with
  | nil => exact (List.append_nil _).symm
  | cons td tds ih =>
      rw [List.foldl_cons, ih, addBlockOf, addFilterMessage_eq, List.flatMap_cons,
        List.append_assoc]
      rfl

theorem totalSize_eq (outParts : List Bytes) :
    totalSize outParts = BitVec.ofNat 32 (outParts.map List.length).sum := by
  have hsum := @foldl_add_ofNat 32 _ (fun msg : Bytes => msg.length) outParts 0
  rw [Nat.zero_add] at hsum
  exact hsum

theorem conditionalRun_eq (f : LogicFilter) (now : Clock) {head : Bytes} {rest : List Bytes}
    (hhead : 12 ≤ head.length) (hrest : rest ≠ []) :
    f.conditionalRun now (head :: rest) =
      .ok ({ f with fTrig := f.fTrig.map fun t => (runTrigger f.fSplitMethod (head :: rest) t).1 },
        setLength (totalSize (head :: (f.blocksOf now (head :: rest) ++ rest))) head ::
          (f.blocksOf now (head :: rest) ++ rest)) := by
  have hlength : ¬ (head :: rest).length < 2 := by
    have hpos := List.length_pos_iff.mpr hrest
    rw [List.length_cons]
    omega
  rw [conditionalRun, if_neg hlength, List.headD_cons, if_neg (Nat.not_lt.mpr hhead)]
  simp only [foldl_addBlockOf, List.map_map]
  rfl

end LogicFilter
end Userworks
