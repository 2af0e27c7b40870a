import Userworks.Exam6.TimeFrameBuilder

/-!
The retry loops of the time frame builder: a complete time frame is offered to the
sub-channels of the decimator and to the output channel until each has taken it.

No new state is pending, a send that fails leaves the parts as they are, and the
decimator is ready; how often each send fails is a parameter. The messages about
failed sends name the time frame through the pointer that the header message was
made from, and that pointer is null by then.
-/
namespace Userworks
namespace TimeFrameBuilder

/-- A `std::unique_ptr` is null once its object has been moved. -/
abbrev UniquePtr (α : Type) := Option α

def UniquePtr.deref {α : Type} : UniquePtr α → Except Fault α
  | some a => .ok a
  | none => .error .undefined

/-- `MessageUtil::NewMessage(*this, std::move(h))`, with what is left in `h`. -/
def newMessage (h : UniquePtr TimeFrame.Header) :
    Except Fault (Bytes × UniquePtr TimeFrame.Header) := do
  let header ← h.deref
  return (header.encode, none)

inductive Channel where
  | output
  | dqm
  | decimator
  deriving DecidableEq

/-- One call of `Send`. -/
structure Offer where
  channel : Channel
  subChannel : Nat
  parts : List Bytes
  accepted : Bool
  deriving DecidableEq

/-- A round of the output loop before the one that succeeds. -/
inductive Round where
  | notReady
  | failed
  deriving DecidableEq

/-- How the channels answer: the failed sends on each sub-channel of the decimator,
the rounds on the output channel, and the send to the data quality monitor. `warn`
says whether the logger lets warnings through; the text of others is not evaluated. -/
structure Transport where
  decimatorFailures : Nat → Nat := fun _ => 0
  rounds : List Round := []
  dqm : Bool := true
  warn : Bool := true

/-- The warning about a failed send. -/
def logFailure (warn : Bool) (h : UniquePtr TimeFrame.Header) : Except Fault Unit :=
  if warn then do
    let _timeFrameId ← h.deref
    return ()
  else .ok ()

/-- The retry loop of a sub-channel of the decimator, which fails `failures` times. -/
def decimatorLoop (warn : Bool) (h : UniquePtr TimeFrame.Header) (outParts : List Bytes)
    (iSubChannel : Nat) : Nat → Except Fault (List Offer)
  | 0 => .ok [⟨.decimator, iSubChannel, outParts, true⟩]
  | failures + 1 => do
      logFailure warn h
      let offers ← decimatorLoop warn h outParts iSubChannel failures
      return ⟨.decimator, iSubChannel, outParts, false⟩ :: offers

def decimatorLoops (t : Transport) (h : UniquePtr TimeFrame.Header) (outParts : List Bytes) :
    List Nat → Except Fault (List Offer)
  | [] => .ok []
  | iSubChannel :: rest => do
      let offers ← decimatorLoop t.warn h outParts iSubChannel (t.decimatorFailures iSubChannel)
      let later ← decimatorLoops t h outParts rest
      return offers ++ later

/-- The retry loop of the output channel, with the direction it ends in. -/
def outputLoop (warn : Bool) (h : UniquePtr TimeFrame.Header) (outParts : List Bytes)
    (fNumDestination fDirection : Nat) : List Round → Except Fault (List Offer × Nat)
  | [] =>
      let direction := fDirection % fNumDestination
      .ok ([⟨.output, direction, outParts, true⟩], direction + 1)
  | .notReady :: rounds =>
      outputLoop warn h outParts fNumDestination (fDirection % fNumDestination + 1) rounds
  | .failed :: rounds => do
      let direction := fDirection % fNumDestination
      logFailure warn h
      let (offers, fDirection) ← outputLoop warn h outParts fNumDestination (direction + 1) rounds
      return (⟨.output, direction, outParts, false⟩ :: offers, fDirection)

/-- The members that the sending of a time frame uses; there is a sub-channel. -/
structure Sender where
  fNumSend : BitVec 64 := 0
  fDirection : Nat := 0
  fNumDestination : Nat := 1
  hdestination : 0 < fNumDestination := by decide

/-- The time frame is one of those that the decimator gets. -/
def Decimated (cfg : Config) (fNumSend : BitVec 64) : Prop :=
  cfg.fDecimatorNumberOfConnectedPeers > 0 ∧ cfg.fDecimationFactor > 0 ∧
    fNumSend % cfg.fDecimationFactor.setWidth 64 = cfg.fDecimationOffset.setWidth 64

instance (cfg : Config) (fNumSend : BitVec 64) : Decidable (Decimated cfg fNumSend) :=
  inferInstanceAs (Decidable (_ ∧ _))

/-- The parts of a complete time frame: its header and those of the sub time frames. -/
def frameParts (cfg : Config) (stfId : BitVec 32) (tfBuf : List STFBuffer) : List Bytes :=
  (frameHeader cfg stfId tfBuf).encode :: tfBuf.flatMap fun stfBuf => stfBuf.arrival.parts

/-- The block for the decimator. -/
def sendDecimated (cfg : Config) (t : Transport) (h : UniquePtr TimeFrame.Header)
    (outParts : List Bytes) (fNumSend : BitVec 64) : Except Fault (List Offer) :=
  if Decimated cfg fNumSend then
    decimatorLoops t h outParts (List.range cfg.decimatorNumSubChannels)
  else .ok []

/-- The branch of a complete time frame, with its calls of `Send`. -/
def sendFrame (cfg : Config) (t : Transport) (s : Sender) (stfId : BitVec 32)
    (tfBuf : List STFBuffer) : Except Fault (Sender × List Offer) := do
  let h : UniquePtr TimeFrame.Header := some (frameHeader cfg stfId tfBuf)
  let parts := tfBuf.flatMap fun stfBuf => stfBuf.arrival.parts
  let (msg, h) ← newMessage h
  let outParts := msg :: parts
  let decimatorOffers ← sendDecimated cfg t h outParts s.fNumSend
  let dqmOffers := if cfg.dqmSocketExists then [⟨.dqm, 0, parts, t.dqm⟩] else []
  let (outputOffers, fDirection) ←
    outputLoop t.warn h outParts s.fNumDestination s.fDirection t.rounds
  return ({ s with fNumSend := s.fNumSend + 1, fDirection },
    decimatorOffers ++ dqmOffers ++ outputOffers)

end TimeFrameBuilder
end Userworks
