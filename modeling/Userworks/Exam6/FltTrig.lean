import Userworks.Lib.Flags
import Userworks.LogicFilter.BlockMap

/-!
The filter of exam6: the messages of a time frame are sorted into groups, the
rows of the groups are searched for triggers, and the messages of rows without a
trigger are left out of the frame that goes on.

Every message has a keep flag. The row loop clears flags by message number, and
afterwards the headers of the sub time frames and of the time frame are brought
up to date before the kept messages are copied. The hit count that is stored back
in the blocks, the copy of the sub time frame headers and the log output are
never read and are left out.
-/
namespace Userworks
namespace Exam6

open LogicFilter (HeartbeatMessage SubFrame frameParts noDataBlock)

structure FltTrig where
  fSplitMethod : Int := 0
  fId : BitVec 32 := 0
  fTrig : Trigger TriggerMap
  fIsDataSuppress : Bool := true
  fIsRemoveHB : Bool := false

namespace FltTrig

structure DataBlock where
  femId : BitVec 32
  type : BitVec 32
  HBFrame : Int
  is_HB : Bool
  msg_index : Int
  deriving DecidableEq

/-- The frame number of a heartbeat word, and -1 for any other word. -/
def isHartBeat (val : Word) (type : BitVec 32) : Int :=
  if type = SubTimeFrame.TDC64H then
    let tdc := TDC64H.unpack val {}
    if tdc.type = T_HB then tdc.hartbeat else -1
  else if type = SubTimeFrame.TDC64L then
    let tdc := TDC64L.unpack val {}
    if tdc.type = T_HB then tdc.hartbeat else -1
  else if type = SubTimeFrame.TDC64L_V1 then
    let tdc := TDC64L.V1.unpack val {}
    if tdc.type = T_HB then tdc.hartbeat else -1
  else -1

/-- The variables of the loop over the messages. The pointer to the time frame
header is the number of its message. -/
structure BlockMapState where
  femid : BitVec 32 := 0
  devtype : BitVec 32 := 0
  blocks : List DataBlock := []
  block_map : List (List DataBlock) := []
  i_tfHeader : Option Nat := none

/-- The block of a message. -/
def messageBlock (femid devtype : BitVec 32) (i : Nat) (data0 : Word) : DataBlock :=
  let hbframe := isHartBeat data0 devtype
  if hbframe < 0 then
    { femId := femid, type := devtype, is_HB := false, msg_index := i, HBFrame := 0 }
  else
    { HBFrame := hbframe, femId := femid, type := devtype, is_HB := true, msg_index := i }

/-- The dummy block of a heartbeat without a data message before it. -/
def dummyBlock (femid : BitVec 32) : DataBlock where
  femId := femid
  type := SubTimeFrame.NULDEV
  is_HB := false
  msg_index := -2
  HBFrame := 0

/-- The blocks that a message adds. -/
def addBlock (fSplitMethod : Int) (femid devtype : BitVec 32) (blocks : List DataBlock) (i : Nat)
    (data0 : Word) : List DataBlock :=
  let dblock := messageBlock femid devtype i data0
  if dblock.is_HB ∧ fSplitMethod = 1 ∧ noDataBlock DataBlock.is_HB blocks then
    blocks ++ [dummyBlock femid, dblock]
  else blocks ++ [dblock]

def makeBlockMapStep (fSplitMethod : Int) (s : BlockMapState) (part : Bytes × Nat) :
    BlockMapState :=
  let (msg, i) := part
  let magic := field 8 0 msg
  if magic = TimeFrame.MAGIC then { s with i_tfHeader := some i }
  else if magic = SubTimeFrame.MAGIC then
    let stfHeader := SubTimeFrame.Header.decode msg
    { s with
      femid := stfHeader.femId
      devtype := stfHeader.femType
      block_map := if 0 < s.blocks.length then s.block_map ++ [s.blocks] else s.block_map
      blocks := [] }
  else { s with blocks := addBlock fSplitMethod s.femid s.devtype s.blocks i magic }

def blockMapLoop (fSplitMethod : Int) (inParts : List Bytes) : BlockMapState :=
  inParts.zipIdx.foldl (makeBlockMapStep fSplitMethod) {}

def makeBlockMap (fSplitMethod : Int) (inParts : List Bytes) : List (List DataBlock) :=
  let s := blockMapLoop fSplitMethod inParts
  s.block_map ++ [s.blocks]

/-- `bsize_min`. -/
def minBlockCount (block_map : List (List DataBlock)) : Nat :=
  block_map.foldl (fun bsize_min blk => if blk.length < bsize_min then blk.length else bsize_min)
    (block_map.headD []).length

/-- The blocks `block_map[iifem][i]`. All groups reach below `minBlockCount`. -/
def row (block_map : List (List DataBlock)) (i : Nat) : List DataBlock :=
  block_map.filterMap fun blocks => blocks[i]?

def markBlock (inParts : List Bytes) (fTrig : Trigger TriggerMap) (dbl : DataBlock) :
    Trigger TriggerMap :=
  if dbl.is_HB = false ∧ 0 ≤ dbl.msg_index then
    fTrig.mark triggerCopy (inParts.getD dbl.msg_index.toNat []) dbl.femId dbl.type
  else fTrig

/-- The trigger after the coincidence check of a row. -/
def scanRow (block_map : List (List DataBlock)) (inParts : List Bytes)
    (fTrig : Trigger TriggerMap) (i : Nat) : Trigger TriggerMap :=
  ((row block_map i).foldl (markBlock inParts) fTrig.cleanUpTimeRegion).scan triggerCopy

/-- A write to a keep flag under a condition. -/
def clearFlagIf (condition : Bool) (flag_sending : List Bool) (k : Nat) :
    Except Fault (List Bool) :=
  if condition then clearFlag flag_sending k else .ok flag_sending

/-- What happens to the flags at a block of a row without hits. In split method 0
and 1 the message behind the data message is taken to be its heartbeat. -/
def clearBlock (f : FltTrig) (flag_sending : List Bool) (dbl : DataBlock) :
    Except Fault (List Bool) :=
  if 0 < dbl.msg_index ∧ dbl.is_HB = false then do
    let flag_sending ←
      clearFlagIf (dbl.type ≠ SubTimeFrame.NULDEV) flag_sending dbl.msg_index.toNat
    clearFlagIf ((f.fSplitMethod = 0 ∨ f.fSplitMethod = 1) ∧ f.fIsRemoveHB) flag_sending
      (dbl.msg_index.toNat + 1)
  else .ok flag_sending

structure RowState where
  fTrig : Trigger TriggerMap
  flag_sending : List Bool
  totalhits : Nat := 0

/-- One round of the loop over the rows. -/
def runRow (f : FltTrig) (block_map : List (List DataBlock)) (inParts : List Bytes) (s : RowState)
    (i : Nat) : Except Fault RowState :=
  let fTrig := scanRow block_map inParts s.fTrig i
  let nhits := fTrig.fHits.length
  let cleared :=
    if nhits = 0 then (row block_map i).foldlM f.clearBlock s.flag_sending
    else .ok s.flag_sending
  cleared.map fun flag_sending =>
    { fTrig := fTrig, flag_sending := flag_sending, totalhits := s.totalhits + nhits }

/-- The row loop from flags that are all set. -/
def runRows (f : FltTrig) (inParts : List Bytes) : Except Fault RowState :=
  let block_map := makeBlockMap f.fSplitMethod inParts
  (List.range (minBlockCount block_map)).foldlM (f.runRow block_map inParts)
    { fTrig := f.fTrig, flag_sending := List.replicate inParts.length true }

def isTf (msg : Bytes) : Bool := field 8 0 msg = TimeFrame.MAGIC

def isStf (msg : Bytes) : Bool := field 8 0 msg = SubTimeFrame.MAGIC

/-- The loop over the messages behind a sub time frame header: the size and the
number of those kept, and how many messages lie before the next header. Without a
next header no message is jumped over. -/
def stfContents (len_stf nmsg_stf : BitVec 32) (passed : Nat) :
    List (Bytes × Bool) → BitVec 32 × BitVec 32 × Nat
  | [] => (len_stf, nmsg_stf, 0)
  | (msg, keep) :: rest =>
      if isStf msg then (len_stf, nmsg_stf, passed)
      else if keep then
        stfContents (len_stf + BitVec.ofNat 32 msg.length) (nmsg_stf + 1) (passed + 1) rest
      else stfContents len_stf nmsg_stf (passed + 1) rest

/-- The header of a sub time frame whose kept messages have the given size and
number: its flag is cleared, or its fields are written. -/
def rewriteStf (msg : Bytes) (keep : Bool) (len_stf nmsg_stf : BitVec 32) : Bytes × Bool :=
  if len_stf = 0 then (msg, false)
  else
    let stfh := { SubTimeFrame.Header.decode msg with
      length := len_stf + BitVec.ofNat 32 SubTimeFrame.Header.size
      numMessages := nmsg_stf }
    (stfh.encode ++ msg.drop SubTimeFrame.Header.size, keep)

/-- The loop over the headers of the sub time frames, on the messages with their
flags. The first argument counts the messages that the index `ii` jumps over. -/
def rewriteStfs : Nat → List (Bytes × Bool) → List (Bytes × Bool)
  | _, [] => []
  | skip + 1, part :: rest => part :: rewriteStfs skip rest
  | 0, (msg, keep) :: rest =>
      if isStf msg then
        let (len_stf, nmsg_stf, jump) := stfContents 0 0 0 rest
        rewriteStf msg keep len_stf nmsg_stf :: rewriteStfs jump rest
      else (msg, keep) :: rewriteStfs 0 rest

/-- `tf_len` of a suppressed time frame. -/
def keptLength (parts : List (Bytes × Bool)) : BitVec 32 :=
  parts.foldl (fun tf_len part =>
    if part.2 then tf_len + BitVec.ofNat 32 part.1.length else tf_len) 0

def rewriteTf (tf_len : BitVec 32) (msg : Bytes) : Bytes :=
  { TimeFrame.Header.decode msg with length := tf_len }.encode ++ msg.drop TimeFrame.Header.size

/-- The clock readings of a run. -/
structure Clock where
  elapse : BitVec 32
  sec : BitVec 64
  usec : BitVec 64

def fltHeader (f : FltTrig) (now : Clock) (tf_len : BitVec 32) (totalhits : Nat) :
    Filter.Header where
  magic := Filter.MAGIC
  length := tf_len + BitVec.ofNat 32 Filter.Header.size
  hLength := 36
  numTrigs := BitVec.ofNat 32 totalhits
  workerId := f.fId
  elapseTime := now.elapse
  timeSec := now.sec
  timeUSec := now.usec

/-- The messages that are sent: the headers are brought up to date if data is
suppressed, and the kept messages are copied behind the filter header. -/
def sendParts (f : FltTrig) (now : Clock) (totalhits : Nat) (i_tfHeader : Option Nat)
    (parts : List (Bytes × Bool)) : Except Fault (List Bytes) :=
  match i_tfHeader with
  | none => .error .undefined
  | some tfIndex =>
      if f.fIsDataSuppress then
        let parts := rewriteStfs 0 parts
        let tf_len := keptLength parts
        let parts := parts.modify tfIndex fun part => (rewriteTf tf_len part.1, part.2)
        .ok ((f.fltHeader now tf_len totalhits).encode ::
          (parts.filter fun part => part.2).map Prod.fst)
      else
        let tf_len := (TimeFrame.Header.decode ((parts.map Prod.fst).getD tfIndex [])).length
        .ok ((f.fltHeader now tf_len totalhits).encode :: parts.map Prod.fst)

/-- One run on a received time frame, up to the sending of the output parts. -/
def conditionalRun (f : FltTrig) (now : Clock) (inParts : List Bytes) :
    Except Fault (FltTrig × List Bytes) :=
  if inParts.length < 2 then .error .assertion
  else do
    let s ← f.runRows inParts
    let outParts ← f.sendParts now s.totalhits
      (blockMapLoop f.fSplitMethod inParts).i_tfHeader (inParts.zip s.flag_sending)
    return ({ f with fTrig := s.fTrig }, outParts)

end FltTrig
end Exam6
end Userworks
