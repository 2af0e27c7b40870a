import Userworks.Lib.LittleEndian
import Userworks.Lib.Text

/-!
The sub time frame builder of the 2018 tests: it looks for the magic number of a
heartbeat header at every byte of the newest payload, and turns what has come in
since the last header into a message, followed by one for the header.

The walk over the queue steps from an element that it has just popped; the iterator
of the deque still leads to the next one here. An arithmetic overflow of an `int` is
undefined. The messages that were appended stay in the state as a history.
-/
namespace Userworks
namespace SubTimeFrameBuilder

namespace HBF

def Magic : BitVec 64 := 0x444145482d464248#64

def Header.size : Nat := 24

end HBF

namespace STF

structure Header where
  magic : BitVec 64 := 0x444145482d465453#64
  timeFrameId : BitVec 32 := 0
  reseved : BitVec 32 := 0
  FEMId : BitVec 64 := 0
  length : BitVec 32 := 0
  numMessages : BitVec 32 := 0
  deriving DecidableEq

def Header.size : Nat := 32

end STF

structure SubTimeFrame where
  header : STF.Header
  payloads : List Bytes
  deriving DecidableEq

/-- The first element of `fWorkingPayloads`, which the header replaces, is left out of
the list. -/
structure Builder where
  fMaxHBF : Int := 1
  fHBFCounter : Int := 0
  fSTFId : BitVec 64 := 0
  fFirst : Nat := 0
  fInputPayloads : List Bytes := []
  fWorkingPayloads : Option (List Bytes) := none
  fOutputPayloads : List SubTimeFrame := []
  deriving DecidableEq

/-- The range of an `int`. -/
def IsInt (x : Int) : Prop := -2 ^ 31 ≤ x ∧ x < 2 ^ 31

instance (x : Int) : Decidable (IsInt x) := inferInstanceAs (Decidable (_ ∧ _))

/-- The working payloads; the space for a new buffer is computed as an `int`. -/
def working (s : Builder) : Except Fault (List Bytes) :=
  match s.fWorkingPayloads with
  | some payloads => .ok payloads
  | none =>
      if ¬IsInt (s.fMaxHBF * 2 + 1) then .error .undefined
      else if s.fMaxHBF * 2 + 1 < 0 then .error .lengthError
      else .ok []

/-- The sizes in front of the last payload. -/
def sizeBefore : List Bytes → Nat
  | p :: q :: rest => p.length + sizeBefore (q :: rest)
  | _ => 0

/-- `totalSize`, an `int` that is brought back into its range after each step. -/
def totalSize (s : Builder) (i : Nat) : Int :=
  (BitVec.ofInt 32 (sizeBefore s.fInputPayloads + i - s.fFirst)).toInt

/-- The copy of the payloads in front of the last one, of the first from `srcOffset` on. -/
def copyBefore (srcOffset : Nat) : List Bytes → Except Fault Bytes
  | p :: q :: rest =>
      if p.length < srcOffset then .error .undefined
      else do return p.drop srcOffset ++ (← copyBefore 0 (q :: rest))
  | _ => .ok []

/-- `++fHBFCounter`, and the end of the sub time frame when enough headers have come. -/
def countHBF (word1 : BitVec 64) (s : Builder) (payloads : List Bytes) : Except Fault Builder :=
  let fHBFCounter := s.fHBFCounter + 1
  if ¬IsInt fHBFCounter ∨ s.fMaxHBF = 0 then .error .undefined
  else if fHBFCounter.tmod s.fMaxHBF = 0 then
    let header : STF.Header :=
      { timeFrameId := s.fSTFId.setWidth 32
        FEMId := word1
        length := BitVec.ofNat 32
          (payloads.foldl (fun init m => init + m.length) STF.Header.size)
        numMessages := BitVec.ofNat 32 (payloads.length + 1) }
    .ok { s with
      fHBFCounter
      fWorkingPayloads := none
      fOutputPayloads := s.fOutputPayloads ++ [⟨header, payloads⟩]
      fSTFId := s.fSTFId + 1 }
  else .ok { s with fHBFCounter, fWorkingPayloads := some payloads }

/-- What is done with a header at the offset `i` of the newest payload. -/
def closeFrame (word1 : BitVec 64) (last : Bytes) (s : Builder) (i : Nat) :
    Except Fault Builder := do
  let payloads ← working s
  if s.fInputPayloads = [] then .error .undefined
  else if totalSize s i < 0 then .error .lengthError
  else
    let before ← copyBefore s.fFirst s.fInputPayloads
    let msgBody := before ++ last.take i
    let payloads := if msgBody = [] then payloads else payloads ++ [msgBody]
    let hbfHeader := (last.drop i).take HBF.Header.size
    let fFirst := i + HBF.Header.size
    let s :=
      if fFirst ≥ last.length then { s with fFirst := 0, fInputPayloads := [] }
      else { s with fFirst, fInputPayloads := [last] }
    countHBF word1 s (payloads ++ [hbfHeader])

/-- The loop over the bytes of the newest payload; its index has 32 bits. -/
def search (word1 : BitVec 64) (last : Bytes) : Nat → Nat → Builder → Except Fault Builder
  | 0, _, _ => .error .fuel
  | fuel + 1, i, s =>
      if i < last.length - HBF.Header.size then
        if field 8 i last = HBF.Magic then do
          search word1 last fuel ((i + HBF.Header.size) % 2 ^ 32) (← closeFrame word1 last s i)
        else search word1 last fuel ((i + 1) % 2 ^ 32) s
      else .ok s

/-- The payload with the second word of the raw header in front of it. A payload that
is shorter than a heartbeat header is read past its end. -/
def buildFrame (s : Builder) (msgParts : BitVec 64 × Bytes) : Except Fault Builder :=
  let last := msgParts.2
  if last.length < HBF.Header.size then .error .undefined
  else
    search msgParts.1 last (last.length + 1) 0
      { s with fInputPayloads := s.fInputPayloads ++ [last] }

def run (s : Builder) (inputs : List (BitVec 64 × Bytes)) : Except Fault Builder :=
  inputs.foldlM buildFrame s

/-- The payload and heartbeat messages that were appended so far, in order. -/
def appended (s : Builder) : Bytes :=
  ((s.fOutputPayloads.flatMap SubTimeFrame.payloads) ++ s.fWorkingPayloads.getD []).flatten

end SubTimeFrameBuilder
end Userworks
