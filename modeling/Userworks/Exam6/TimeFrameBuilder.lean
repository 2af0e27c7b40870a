import Userworks.Lib.Text
import Userworks.LogicFilter.FrameHeaders

/-!
The time frame builder: one `ConditionalRun` call receives at most one sub time
frame, buffers it under its time frame number, and then goes through the buffer,
sending the complete time frames and discarding the incomplete ones that are too
old.

Every send succeeds at once here. The check of the last delimiter and the list of
lost modules only write to the log and are left out. What has been sent and
discarded is kept in the state as a history.
-/
namespace Userworks
namespace TimeFrameBuilder

/-- The parts of a sub time frame with the source that sent it. The builder never
looks at the source. -/
structure Arrival where
  source : Nat
  parts : List Bytes
  deriving DecidableEq

def Arrival.stfId (a : Arrival) : BitVec 32 :=
  (SubTimeFrame.Header.decode (a.parts.headD [])).timeFrameId

structure STFBuffer where
  arrival : Arrival
  start : Int

/-- The `std::unordered_map` in its iteration order. -/
abbrev TFBuffer := List (BitVec 32 × List STFBuffer)

structure Config where
  fNumSource : Nat
  fBufferTimeoutInMs : Int := 10000
  dqmSocketExists : Bool := false
  decimatorNumSubChannels : Nat := 0
  fDecimatorNumberOfConnectedPeers : Int := 0
  fDecimationFactor : BitVec 32 := 0
  fDecimationOffset : BitVec 32 := 0

/-- What happened to a buffered time frame: it was sent, with copies to the other
channels, or it was discarded at a clock reading. -/
inductive Event where
  | sent (stfId : BitVec 32) (tfBuf : List STFBuffer) (outParts : List Bytes)
      (dqmParts : Option (List Bytes)) (decimatorParts : List (List Bytes))
  | discarded (stfId : BitVec 32) (tfBuf : List STFBuffer) (now : Int)

/-- The successive readings of a `std::chrono::steady_clock`, which never go back. -/
def SteadyClock (clock : Nat → Int) : Prop := ∀ ⦃i j : Nat⦄, i ≤ j → clock i ≤ clock j

/-- `ticks` counts the readings of the clock, which is a parameter. -/
structure State where
  fTFBuffer : TFBuffer := []
  fNumSend : BitVec 64 := 0
  ticks : Nat := 0
  events : List Event := []

/-- The size of the parts, summed in an `int`. -/
def partsLength (parts : List Bytes) : BitVec 32 :=
  parts.foldl (fun jinit m => jinit + BitVec.ofNat 32 m.length) 0#32

/-- The size of the time frame, summed in a `size_t`. -/
def frameLength (tfBuf : List STFBuffer) : BitVec 64 :=
  tfBuf.foldl (fun init stfBuf => init + (partsLength stfBuf.arrival.parts).signExtend 64)
    (BitVec.ofNat 64 TimeFrame.Header.size)

def frameHeader (cfg : Config) (stfId : BitVec 32) (tfBuf : List STFBuffer) :
    TimeFrame.Header where
  magic := TimeFrame.MAGIC
  timeFrameId := stfId
  numSource := BitVec.ofNat 32 cfg.fNumSource
  length := (frameLength tfBuf).setWidth 32

/-- The branch of a complete time frame. -/
def send (cfg : Config) (s : State) (stfId : BitVec 32) (tfBuf : List STFBuffer) : State :=
  let parts := tfBuf.flatMap fun stfBuf => stfBuf.arrival.parts
  let outParts := (frameHeader cfg stfId tfBuf).encode :: parts
  let decimated := cfg.fDecimatorNumberOfConnectedPeers > 0 ∧ cfg.fDecimationFactor > 0 ∧
    s.fNumSend % cfg.fDecimationFactor.setWidth 64 = cfg.fDecimationOffset.setWidth 64
  { s with
    fNumSend := s.fNumSend + 1
    events := s.events ++ [.sent stfId tfBuf outParts
      (if cfg.dqmSocketExists then some parts else none)
      (if decimated then List.replicate cfg.decimatorNumSubChannels outParts else [])] }

/-- One round of the loop over the buffer; `s` holds the entries that were kept so
far. The age in milliseconds is cut towards zero. -/
def visit (cfg : Config) (clock : Nat → Int) (s : State)
    (entry : BitVec 32 × List STFBuffer) : Except Fault State :=
  let (stfId, tfBuf) := entry
  if tfBuf.length = cfg.fNumSource then .ok (send cfg s stfId tfBuf)
  else
    match tfBuf with
    | [] => .error .undefined
    | front :: _ =>
        let now := clock s.ticks
        let s := { s with ticks := s.ticks + 1 }
        if (now - front.start).tdiv 1000000 > cfg.fBufferTimeoutInMs then
          .ok { s with events := s.events ++ [.discarded stfId tfBuf now] }
        else .ok { s with fTFBuffer := s.fTFBuffer ++ [(stfId, tfBuf)] }

/-- `fTFBuffer[stfId].emplace_back(stfBuf)`. -/
def emplaceBack (stfId : BitVec 32) (stfBuf : STFBuffer) : TFBuffer → TFBuffer
  | [] => [(stfId, [stfBuf])]
  | (key, tfBuf) :: rest =>
      if key = stfId then (key, tfBuf ++ [stfBuf]) :: rest
      else (key, tfBuf) :: emplaceBack stfId stfBuf rest

/-- What a call is given: the message that is waiting, if any, and the order in
which the buffer is gone through, which the library is free to choose. -/
structure Input where
  received : Option Arrival
  rehash : TFBuffer → TFBuffer
  rehash_perm : ∀ table, (rehash table).Perm table

def receive (clock : Nat → Int) (s : State) (a : Arrival) : Except Fault State :=
  if a.parts.length < 2 then .error .assertion
  else if (a.parts.headD []).length < SubTimeFrame.Header.size then .error .undefined
  else
    .ok { s with
      fTFBuffer := emplaceBack a.stfId ⟨a, clock s.ticks⟩ s.fTFBuffer
      ticks := s.ticks + 1 }

def conditionalRun (cfg : Config) (clock : Nat → Int) (s : State) (input : Input) :
    Except Fault State := do
  let s ← match input.received with
    | some a => receive clock s a
    | none => .ok s
  (input.rehash s.fTFBuffer).foldlM (visit cfg clock) { s with fTFBuffer := [] }

/-- Successive calls. -/
def run (cfg : Config) (clock : Nat → Int) (s : State) (inputs : List Input) :
    Except Fault State :=
  inputs.foldlM (conditionalRun cfg clock) s

end TimeFrameBuilder
end Userworks
