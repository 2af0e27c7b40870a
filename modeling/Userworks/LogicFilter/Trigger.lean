import Userworks.Lib.Edges
import Userworks.Lib.Text
import Userworks.LogicFilter.FrameHeaders
import Userworks.LogicFilter.TriggerMap
import Userworks.LogicFilter.UnpackTdc

/-!
The trigger engine: registered channels are marked in a time region, and the
region is scanned for the times at which the look-up table turns true.

The engine exists twice, under LogicFilter and under exam6. The copies differ in
the look-up table and in one decoder call, which are the fields of `TriggerCopy`;
everything else is written once. Messages about hits out of range are not
modelled.
-/
namespace Userworks

/-- A data segment of one front-end module; its size is that of `data`. -/
structure HBFIndex where
  msgIndex : Int
  timeFrameId : BitVec 32
  femType : BitVec 32
  femId : BitVec 32
  data : Bytes
  deriving DecidableEq

/-- A `std::map` from module numbers to vectors. A key that is absent and a key
with an empty vector are the same to every use in the engine. -/
abbrev ModuleMap (α : Type) := BitVec 32 → List α

/-- `map[fem].emplace_back(x)`. -/
def ModuleMap.emplaceBack {α : Type} (map : ModuleMap α) (fem : BitVec 32) (x : α) :
    ModuleMap α :=
  fun key => if key = fem then map key ++ [x] else map key

structure Trigger (Map : Type) where
  fEntryCh : ModuleMap Int := fun _ => []
  fEntryChDelay : ModuleMap Int := fun _ => []
  fEntryChBit : ModuleMap (BitVec 32) := fun _ => []
  fEntryCounts : Nat := 0
  fEntryMask : BitVec 32 := 0
  fTimeRegionSize : BitVec 32 := 0
  fTimeRegion : List (BitVec 32) := []
  fHits : List (BitVec 32) := []
  fMarkLen : Int := 5
  fTMap : Map

/-- What the two copies of the engine differ in: the reading of a word of a
given module type as a channel and a time, and the table look-up. -/
structure TriggerCopy (Map : Type) where
  tdcHit : BitVec 32 → Word → Option (Int × Int)
  lookUp : Map → BitVec 32 → Bool

namespace Trigger

variable {Map : Type}

/-- The new array has `size` cells with whatever contents it is given. -/
def setTimeRegion (t : Trigger Map) (size : BitVec 32) (contents : List (BitVec 32)) :
    Trigger Map :=
  { t with
    fTimeRegionSize := size
    fTimeRegion := contents.take size.toNat ++
      List.replicate (size.toNat - contents.length) 0 }

def cleanUpTimeRegion (t : Trigger Map) : Trigger Map :=
  { t with fTimeRegion := t.fTimeRegion.map fun _ => 0 }

/-- The assertion at the end bounds the number of entries by the bits of a mark. -/
def entry (t : Trigger Map) (fem : BitVec 32) (ch offset : Int) : Except Fault (Trigger Map) :=
  let t := { t with
    fEntryCh := t.fEntryCh.emplaceBack fem ch
    fEntryChDelay := t.fEntryChDelay.emplaceBack fem offset
    fEntryChBit := t.fEntryChBit.emplaceBack fem (1#32 <<< t.fEntryCounts)
    fEntryMask := t.fEntryMask ||| 1#32 <<< t.fEntryCounts
    fEntryCounts := t.fEntryCounts + 1 }
  if t.fEntryCounts ≤ 32 then .ok t else .error .assertion

def clearEntry (t : Trigger Map) : Trigger Map :=
  { t with
    fEntryCh := fun _ => []
    fEntryChDelay := fun _ => []
    fEntryChBit := fun _ => []
    fEntryMask := 0
    fEntryCounts := 0 }

/-- The values of `k` from `-1 * (fMarkLen/2)` up to `fMarkLen/2`. -/
def markOffsets (markLen : Int) : List Int :=
  (List.range (2 * markLen.tdiv 2 + 1).toNat).map fun (j : Nat) => -1 * markLen.tdiv 2 + (j : Int)

/-- The marking of one hit. All arithmetic on times is that of `uint32_t`. -/
def markHit (t : Trigger Map) (hit markbit : BitVec 32) : Trigger Map :=
  if hit < t.fTimeRegionSize - BitVec.ofInt 32 (t.fMarkLen.tdiv 2) then
    let region := (markOffsets t.fMarkLen).foldl
      (fun region k =>
        if hit + BitVec.ofInt 32 k < t.fTimeRegionSize then
          region.modify (hit + BitVec.ofInt 32 k).toNat (· ||| markbit)
        else region) t.fTimeRegion
    { t with fTimeRegion := region }
  else t

/-- The loop over the words of a segment for one registered channel. -/
def markChannel (tdcHit : BitVec 32 → Word → Option (Int × Int)) (t : Trigger Map)
    (data : Bytes) (type : BitVec 32) (ch delay : Int) (markbit : BitVec 32) : Trigger Map :=
  (words data).foldl (fun t w =>
    match tdcHit type w with
    | some (tdcCh, tdc4n) =>
        if tdcCh = ch then t.markHit (BitVec.ofInt 32 (tdc4n + delay)) markbit else t
    | none => t) t

def mark (copy : TriggerCopy Map) (t : Trigger Map) (data : Bytes) (fem type : BitVec 32) :
    Trigger Map :=
  (List.range (t.fEntryCh fem).length).foldl (fun t i =>
    t.markChannel copy.tdcHit data type ((t.fEntryCh fem).getD i 0)
      ((t.fEntryChDelay fem).getD i 0) ((t.fEntryChBit fem).getD i 0)) t

/-- The hits are the times `i + 1` with a false cell at `i` and a true one at
`i + 1`. -/
def scan (copy : TriggerCopy Map) (t : Trigger Map) : Trigger Map :=
  let value := fun i => copy.lookUp t.fTMap (t.fTimeRegion.getD i 0)
  { t with fHits := (risingEdges value (t.fTimeRegionSize - 1).toNat).map (BitVec.ofNat 32) }

def exec (copy : TriggerCopy Map) (t : Trigger Map) (hbf : List HBFIndex) : Trigger Map :=
  (hbf.foldl (fun t seg => t.mark copy seg.data seg.femId seg.femType)
    t.cleanUpTimeRegion).scan copy

end Trigger

namespace LogicFilter

def tdcHit (type : BitVec 32) (w : Word) : Option (Int × Int) :=
  if type = SubTimeFrame.TDC64H then
    let tdc := TDC64H.unpack w {}
    if tdc.type = T_TDC then some (tdc.ch, tdc.tdc4n) else none
  else if type = SubTimeFrame.TDC64L then
    let tdc := TDC64L.unpack w {}
    if tdc.type = T_TDC then some (tdc.ch, tdc.tdc4n) else none
  else if type = SubTimeFrame.TDC64H_V3 then
    let tdc := TDC64H_V3.unpack w {}
    if tdc.type = T_TDC then some (tdc.ch, tdc.tdc4n) else none
  else if type = SubTimeFrame.TDC64L_V3 then
    let tdc := TDC64L_V3.unpack w {}
    if tdc.type = T_TDC then some (tdc.ch, tdc.tdc4n) else none
  else none

def triggerCopy : TriggerCopy TriggerMap where
  tdcHit := tdcHit
  lookUp := TriggerMap.lookUp

end LogicFilter

namespace Exam6

/-- The last branch calls the decoder of the older format. -/
def tdcHit (type : BitVec 32) (w : Word) : Option (Int × Int) :=
  if type = SubTimeFrame.TDC64H then
    let tdc := TDC64H.unpack w {}
    if tdc.type = T_TDC then some (tdc.ch, tdc.tdc4n) else none
  else if type = SubTimeFrame.TDC64L then
    let tdc := TDC64L.unpack w {}
    if tdc.type = T_TDC then some (tdc.ch, tdc.tdc4n) else none
  else if type = SubTimeFrame.TDC64H_V3 then
    let tdc := TDC64H_V3.unpack w {}
    if tdc.type = T_TDC then some (tdc.ch, tdc.tdc4n) else none
  else if type = SubTimeFrame.TDC64L_V3 then
    let tdc := TDC64L.unpack w {}
    if tdc.type = T_TDC then some (tdc.ch, tdc.tdc4n) else none
  else none

def triggerCopy : TriggerCopy TriggerMap where
  tdcHit := tdcHit
  lookUp := TriggerMap.lookUp

end Exam6
end Userworks
