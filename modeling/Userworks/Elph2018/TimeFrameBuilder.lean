import Userworks.Exam6.TimeFrameBuilder

/-!
The time frame builder of the 2018 tests. It differs from the later one in what it does
with the sub time frames that come after their time frame was discarded: it keeps the
numbers of the discarded time frames and takes no more sub time frames for them.

The buffer, the messages and the size of the frame header are those of the later
builder. Every send succeeds at once here, and the copies for the other sockets of the
output channel, which have the same parts, are left out. What has happened stays in the
state as a history.
-/
namespace Userworks
namespace Elph2018
namespace TimeFrameBuilder

open Userworks.TimeFrameBuilder (STFBuffer TFBuffer Input emplaceBack frameLength)

namespace TF

def Magic : BitVec 64 := 0x444145482d465440#64

structure Header where
  magic : BitVec 64 := Magic
  timeFrameId : BitVec 32 := 0
  numSource : BitVec 32 := 0
  length : BitVec 64 := 0
  deriving DecidableEq

def Header.encode (h : Header) : Bytes :=
  put 8 h.magic ++ (put 4 h.timeFrameId ++ (put 4 h.numSource ++ put 8 h.length))

end TF

/-- A sub time frame with the source that sent it. -/
abbrev Arrival := Userworks.TimeFrameBuilder.Arrival

/-- The size of the header of a sub time frame. -/
def STF.Header.size : Nat := 32

/-- `stfHeader->timeFrameId`. -/
def timeFrameId (a : Arrival) : BitVec 32 := field 4 8 (a.parts.headD [])

structure Config where
  fNumSource : Nat
  fBufferTimeoutInMs : Int := 100000

inductive Event where
  | sent (stfId : BitVec 32) (tfBuf : List STFBuffer) (outParts : List Bytes)
  | discarded (stfId : BitVec 32) (tfBuf : List STFBuffer) (now : Int)
  | refused (a : Arrival)

/-- `fDiscarded` is a `std::unordered_set`. -/
structure State where
  fTFBuffer : TFBuffer := []
  fDiscarded : List (BitVec 32) := []
  ticks : Nat := 0
  events : List Event := []

def frameHeader (cfg : Config) (stfId : BitVec 32) (tfBuf : List STFBuffer) : TF.Header where
  timeFrameId := stfId
  numSource := BitVec.ofNat 32 cfg.fNumSource
  length := frameLength tfBuf

def outParts (cfg : Config) (stfId : BitVec 32) (tfBuf : List STFBuffer) : List Bytes :=
  (frameHeader cfg stfId tfBuf).encode :: tfBuf.flatMap fun stfBuf => stfBuf.arrival.parts

/-- One round of the loop over the buffer; `s` holds the entries that were kept so far. -/
def visit (cfg : Config) (clock : Nat → Int) (s : State) (entry : BitVec 32 × List STFBuffer) :
    Except Fault State :=
  let (stfId, tfBuf) := entry
  if tfBuf.length = cfg.fNumSource then
    .ok { s with events := s.events ++ [.sent stfId tfBuf (outParts cfg stfId tfBuf)] }
  else
    match tfBuf with
    | [] => .error .undefined
    | front :: _ =>
        let now := clock s.ticks
        let s := { s with ticks := s.ticks + 1 }
        if (now - front.start).tdiv 1000000 > cfg.fBufferTimeoutInMs then
          .ok { s with
            fDiscarded := stfId :: s.fDiscarded
            events := s.events ++ [.discarded stfId tfBuf now] }
        else .ok { s with fTFBuffer := s.fTFBuffer ++ [(stfId, tfBuf)] }

def receive (clock : Nat → Int) (s : State) (a : Arrival) : Except Fault State :=
  if a.parts.length < 2 then .error .assertion
  else if (a.parts.headD []).length < STF.Header.size then .error .undefined
  else if timeFrameId a ∈ s.fDiscarded then .ok { s with events := s.events ++ [.refused a] }
  else
    .ok { s with
      fTFBuffer := emplaceBack (timeFrameId a) ⟨a, clock s.ticks⟩ s.fTFBuffer
      ticks := s.ticks + 1 }

def conditionalRun (cfg : Config) (clock : Nat → Int) (s : State) (input : Input) :
    Except Fault State := do
  let s ← match input.received with
    | some a => receive clock s a
    | none => .ok s
  (input.rehash s.fTFBuffer).foldlM (visit cfg clock) { s with fTFBuffer := [] }

/-- Successive calls. -/
def run (cfg : Config) (clock : Nat → Int) (s : State) (inputs : List Input) :
    Except Fault State :=
  inputs.foldlM (conditionalRun cfg clock) s

end TimeFrameBuilder
end Elph2018
end Userworks
