import Userworks.Exam6.SinkHeader
import Userworks.Exam6.TFBFilePlayer
import Userworks.Lib.RecordFile

/-!
The player of sub time frame files: each `ConditionalRun` call reads one sub time
frame, cuts its words into messages and sends them, with a copy for the data
quality monitor if there is one.

The file can always be opened and every send succeeds at once here, and the dump of
the header to the terminal is left out. What has been sent is kept in the state as
a history.
-/
namespace Userworks

namespace STFBFilePlayer

open AmQStrTdc

structure Options where
  maxIterations : Int := 0
  split : Int := 1
  dqmChannels : Nat := 0

structure Player where
  fInputFile : InputFile := { contents := [] }
  fNumIteration : Int := 0
  fMaxIterations : Int := 0
  fSplitMethod : Int := 0
  dqmSocketExists : Bool := false
  sent : List (List Bytes) := []
  dqmSent : List (List Bytes) := []

def initTask (opts : Options) : Player where
  fMaxIterations := opts.maxIterations
  fSplitMethod := opts.split
  dqmSocketExists := opts.dqmChannels != 0

def preRun (s : Player) (contents : Bytes) : Player :=
  { s with
    fNumIteration := 0
    fInputFile := InputFile.skipSinkHeader SubTimeFrame.MAGIC contents }

/-- The loop over the words from `ptr` on, with the words between `wBegin` and `ptr`;
the last of these is `prev`. -/
def splitWords (fSplitMethod : Int) : List Word → List Word → List Bytes
  | _, [] => []
  | open_, w :: ws =>
      if head w = SpillEnd ∨ head w = Heartbeat then
        if fSplitMethod = 0 then putWords (open_ ++ [w]) :: splitWords fSplitMethod [] ws
        else
          match open_.getLast? with
          | none => splitWords fSplitMethod (open_ ++ [w]) ws
          | some prev =>
              if head prev = Heartbeat then
                putWords (open_ ++ [w]) :: splitWords fSplitMethod [] ws
              else putWords open_ :: splitWords fSplitMethod [w] ws
      else splitWords fSplitMethod (open_ ++ [w]) ws

/-- The part of the call that comes after the checks of the magic number. The buffer
for the body starts out as zeros. -/
def readFrame (s : Player) (msgSTFHeader : Bytes) : Except Fault (Player × Bool) :=
  let stfHeader := SubTimeFrame.Header.decode msgSTFHeader
  if stfHeader.length.toNat < SubTimeFrame.Header.size then .error .lengthError
  else
    let size := stfHeader.length.toNat - SubTimeFrame.Header.size
    let (got, file) := s.fInputFile.read size
    let buf := InputFile.overwrite got (List.replicate size 0)
    -- the number of bytes of the body is compared with the size of the header
    if file.gcount < SubTimeFrame.Header.size then .ok ({ s with fInputFile := file }, false)
    else
      let nWords := size / 8
      let outParts := msgSTFHeader :: splitWords s.fSplitMethod [] (words (buf.take (8 * nWords)))
      let s := { s with
        fInputFile := file
        dqmSent := if s.dqmSocketExists then s.dqmSent ++ [outParts] else s.dqmSent
        sent := s.sent ++ [outParts]
        fNumIteration := s.fNumIteration + 1 }
      .ok (s, !(decide (s.fMaxIterations > 0) && decide (s.fMaxIterations ≤ s.fNumIteration)))

/-- One call; the second result says whether the device stays in its loop. The
message for the header comes with the memory `mem`. -/
def conditionalRun (mem : SubTimeFrame.Header) (s : Player) : Except Fault (Player × Bool) :=
  if s.fInputFile.eofbit then .ok (s, false)
  else
    let (got, file) := s.fInputFile.read SubTimeFrame.Header.size
    let msgSTFHeader := InputFile.overwrite got mem.encode
    let stfHeader := SubTimeFrame.Header.decode msgSTFHeader
    if file.gcount < SubTimeFrame.Header.size then .ok ({ s with fInputFile := file }, false)
    else if stfHeader.magic ≠ SubTimeFrame.MAGIC then .ok ({ s with fInputFile := file }, false)
    else readFrame { s with fInputFile := file } msgSTFHeader

/-- The replay of a file: calls until one leaves the loop. -/
def replay (opts : Options) (mems : List SubTimeFrame.Header) (contents : Bytes) :
    Except Fault (Player × Bool) :=
  playAll conditionalRun mems (preRun (initTask opts) contents)

end STFBFilePlayer
end Userworks
