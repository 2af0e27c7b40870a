import Userworks.Lib.LittleEndian
import Userworks.Lib.Text

/-!
The sub time frame builder of the HUL streaming TDC: each input message is cut at its
delimiter words, and after a maximum number of delimiters, or at the end of a spill,
what was collected is sent as a sub time frame.

A word has 40 bits here. Every send succeeds at once, and the copy for the data quality
monitor is left out. An arithmetic overflow is undefined.
-/
namespace Userworks

namespace HulStrTdc

abbrev TdcWord := BitVec 40

def DataHead : BitVec 4 := 0xD
def Heartbeat : BitVec 4 := 0xF
def ErrorRecovery : BitVec 4 := 0xE
def SpillEnd : BitVec 4 := 0x4

/-- The field `Bits::head` of a word. -/
def head (w : TdcWord) : BitVec 4 := w.extractLsb' 36 4

def wordSize : Nat := 5

/-- The whole words of a message; a shorter rest is not a word. -/
def tdcWords : Bytes → List TdcWord
  | b0 :: b1 :: b2 :: b3 :: b4 :: bs =>
      BitVec.ofNat 40 (ofLE [b0, b1, b2, b3, b4]) :: tdcWords bs
  | _ => []

def putTdcWords (ws : List TdcWord) : Bytes := ws.flatMap (put 5)

/-- The first version of the sub time frame header. -/
structure Header where
  magic : BitVec 64 := 0x444145482d465453
  timeFrameId : BitVec 32 := 0
  reserved : BitVec 32 := 0
  type : BitVec 32 := 0
  femId : BitVec 32 := 0
  length : BitVec 32 := 0
  numMessages : BitVec 32 := 0
  timeSec : BitVec 64 := 0
  timeUSec : BitVec 64 := 0
  deriving DecidableEq

def Header.size : Nat := 48

def Header.encode (h : Header) : Bytes :=
  put 8 h.magic ++ (put 4 h.timeFrameId ++ (put 4 h.reserved ++ (put 4 h.type ++
    (put 4 h.femId ++ (put 4 h.length ++ (put 4 h.numMessages ++
      (put 8 h.timeSec ++ put 8 h.timeUSec)))))))

/-- A sub time frame: its header and the words of its other messages. -/
structure SubTimeFrame where
  header : Header
  payloads : List (List TdcWord)
  deriving DecidableEq

def SubTimeFrame.parts (stf : SubTimeFrame) : List Bytes :=
  stf.header.encode :: stf.payloads.map putTdcWords

end HulStrTdc

namespace HulStrTdcSTFBuilder

open HulStrTdc

structure Options where
  femId : BitVec 64 := 0
  maxHBF : Int := 1
  split : Int := 0

/-- The first element of `fWorkingPayloads`, which `FinalizeSTF` replaces, is left out
of the list. -/
structure Builder where
  fFEMId : BitVec 64 := 0
  fMaxHBF : Int := 1
  fHBFCounter : Int := 0
  fSTFId : BitVec 64 := 0
  fSplitMethod : Int := 0
  fInputPayloads : List TdcWord := []
  fWorkingPayloads : Option (List (List TdcWord)) := none
  fOutputPayloads : List SubTimeFrame := []
  deriving DecidableEq

def initTask (opts : Options) : Builder where
  fFEMId := opts.femId
  fMaxHBF := opts.maxHBF
  fSplitMethod := opts.split

/-- The space that is reserved for the payloads is computed as an `int`. -/
def newData (s : Builder) : Except Fault Builder :=
  match s.fWorkingPayloads with
  | some _ => .ok s
  | none =>
      let space := s.fMaxHBF * 2 + 1
      if space < -2 ^ 31 ∨ 2 ^ 31 ≤ space then .error .undefined
      else if space < 0 then .error .lengthError
      else .ok { s with fWorkingPayloads := some [] }

def emplaceBack (s : Builder) (payload : List TdcWord) : Builder :=
  { s with fWorkingPayloads := s.fWorkingPayloads.map (· ++ [payload]) }

def finalizeSTF (s : Builder) : Except Fault Builder :=
  match s.fWorkingPayloads with
  | none => .error .undefined
  | some payloads =>
      let stfHeader : Header :=
        { timeFrameId := s.fSTFId.setWidth 32
          femId := s.fFEMId.setWidth 32
          length := BitVec.ofNat 32
            (payloads.foldl (fun init m => init + wordSize * m.length) Header.size)
          numMessages := BitVec.ofNat 32 (payloads.length + 1) }
      .ok { s with
        fWorkingPayloads := none
        fOutputPayloads := s.fOutputPayloads ++ [⟨stfHeader, payloads⟩]
        fSTFId := s.fSTFId + 1
        fHBFCounter := 0 }

/-- The test whether the maximum number of delimiters has been counted. -/
def isFull (s : Builder) : Except Fault Bool :=
  if s.fMaxHBF = 0 then .error .undefined
  else .ok (s.fHBFCounter.tmod s.fMaxHBF == 0 && decide (s.fHBFCounter > 0))

/-- The split methods other than 0 finalize behind the data of the last heartbeat frame. -/
def finalizeInFill (s : Builder) : Except Fault Builder :=
  if s.fSplitMethod ≠ 0 then do
    if ← isFull s then newData (← finalizeSTF s) else return s
  else .ok s

/-- `FillData` for the words from `first` to `last`; the word at `last` is read only if
this is not the end of a spill. -/
def fillData (s : Builder) (segment : List TdcWord) (last : TdcWord) (isSpillEnd : Bool) :
    Except Fault Builder := do
  let buf := s.fInputPayloads ++ segment
  let s ← newData { s with fInputPayloads := [] }
  let s ← finalizeInFill (if buf.isEmpty then s else emplaceBack s buf)
  return if isSpillEnd then s else emplaceBack s [last]

/-- The count of a delimiter; split method 0 finalizes behind the last one. -/
def countDelimiter (s : Builder) (w : TdcWord) : Except Fault Builder :=
  if head w = Heartbeat ∨ head w = ErrorRecovery then do
    let s := { s with fHBFCounter := s.fHBFCounter + 1 }
    if s.fSplitMethod = 0 then do
      if ← isFull s then finalizeSTF s else return s
    else return s
  else .ok s

def closeSpill (s : Builder) (w : TdcWord) : Except Fault Builder :=
  if head w = SpillEnd then do finalizeSTF (← fillData s [w] w true) else .ok s

/-- The part of the loop for a word that closes a segment. -/
def closeSegment (s : Builder) (segment : List TdcWord) (w : TdcWord) :
    Except Fault Builder := do
  let s ← fillData s segment w (head w == SpillEnd)
  closeSpill (← countDelimiter s w) w

def isHeadValid (w : TdcWord) : Bool :=
  head w == DataHead || head w == Heartbeat || head w == ErrorRecovery || head w == SpillEnd

/-- The loop over the words of a message, with the words from `offset` on that no
delimiter has closed. -/
def loop (s : Builder) (segment : List TdcWord) : List TdcWord → Except Fault Builder
  | [] => .ok { s with fInputPayloads := s.fInputPayloads ++ segment }
  | w :: ws =>
      if !isHeadValid w then
        loop { s with fInputPayloads := s.fInputPayloads ++ segment } [] ws
      else if head w = Heartbeat ∨ head w = ErrorRecovery ∨ head w = SpillEnd then do
        loop (← closeSegment s segment w) [] ws
      else loop s (segment ++ [w]) ws

def buildFrame (s : Builder) (msg : Bytes) : Except Fault Builder := loop s [] (tdcWords msg)

/-- The input messages in turn, with the sub time frames that are sent: `HandleData` sends
what `BuildFrame` has put into the queue. -/
def run (s : Builder) : List Bytes → Except Fault (List SubTimeFrame × Builder)
  | [] => .ok ([], s)
  | msg :: msgs => do
      let s ← buildFrame s msg
      let (later, s') ← run { s with fOutputPayloads := [] } msgs
      return (s.fOutputPayloads ++ later, s')

end HulStrTdcSTFBuilder
end Userworks
