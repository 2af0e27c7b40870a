import Userworks.Exam6.AmQStrTdcData
import Userworks.Lib.InputFile
import Userworks.Lib.Text
import Userworks.LogicFilter.FrameHeaders

/-!
The player of time frame files: `PreRun` skips the header of a file sink, and each
`ConditionalRun` call reads one time frame, cuts the words of its sub time frames
into messages and sends them.

The file can always be opened and every send succeeds at once here. The bytes of
local variables and fresh messages that no read has filled are a parameter of the
call. What has been sent is kept in the state as a history.
-/
namespace Userworks

namespace TFBFilePlayer

open AmQStrTdc

structure Options where
  maxIterations : Int := 0
  split : Int := 2

structure Player where
  fInputFile : InputFile := { contents := [] }
  fNumIteration : Int := 0
  fMaxIterations : Int := 0
  fSplitMethod : Int := 0
  sent : List (List Bytes) := []

def initTask (opts : Options) : Player where
  fMaxIterations := opts.maxIterations
  fSplitMethod := opts.split

/-- The size field of the older sink header is read before its magic. A jump is
given as a `uint64_t` and taken as a signed offset. -/
def preRun (s : Player) (contents : Bytes) : Player :=
  let (got, file) := InputFile.read { contents } 8
  let buf := field 8 0 got
  let file :=
    if file.gcount ≠ 8 then file
    else if buf = TimeFrame.MAGIC then (file.seekg 0).clear
    else
      let (got, file) := file.read 8
      let second := field 8 0 got
      if buf = FileSinkHeader.MAGIC then file.seekgCur (second - 16).toInt
      else if second = FileSinkHeader.MAGIC then file.seekgCur (buf - 16).toInt
      else file
  { s with fNumIteration := 0, fInputFile := file }

/-- The loop over the words from `ptr` on, with the words between `wBegin` and `ptr`
and the bytes that follow the last word. A second delimiter is looked for behind
the words too; one that stood there would let `ptr` pass the end of the loop. -/
def splitWords (fSplitMethod : Int) (past : Bytes) : List Word → List Word →
    Except Fault (List Bytes)
  | _, [] => .ok []
  | open_, w :: ws =>
      if head w = SpillEnd ∨ head w = Heartbeat then
        if fSplitMethod = 0 then do
          return putWords (open_ ++ [w]) :: (← splitWords fSplitMethod past [] ws)
        else if fSplitMethod = 1 then
          if open_.length = 0 then splitWords fSplitMethod past (open_ ++ [w]) ws
          else if open_.length > 1 ∨ open_.length = 1 ∧ head (open_.getLastD 0) ≠ Heartbeat then do
            return putWords open_ :: (← splitWords fSplitMethod past [w] ws)
          else do
            return putWords (open_ ++ [w]) :: (← splitWords fSplitMethod past [] ws)
        else
          match ws with
          | next :: ws =>
              if head next = Heartbeat then do
                return putWords (open_ ++ [w, next]) :: (← splitWords fSplitMethod past [] ws)
              else do
                return putWords (open_ ++ [w]) ::
                  (← splitWords fSplitMethod past [] (next :: ws))
          | [] =>
              if past.length < 8 then .error .undefined
              else if head (field 8 0 past) = Heartbeat then .error .undefined
              else .ok [putWords (open_ ++ [w])]
      else splitWords fSplitMethod past (open_ ++ [w]) ws

/-- The loop over the sub time frames; reading past the end of the buffer is
undefined. -/
def subFrames (fSplitMethod : Int) : Nat → Bytes → Except Fault (List Bytes)
  | 0, _ => .ok []
  | numSource + 1, buf => do
      let stfHeader := SubTimeFrame.Header.decode buf
      let length := stfHeader.length.toNat
      if buf.length < SubTimeFrame.Header.size ∨ length < SubTimeFrame.Header.size ∨
          buf.length < length then
        .error .undefined
      else
        let bodyNBytes := length - SubTimeFrame.Header.size
        let body := buf.drop SubTimeFrame.Header.size
        let nWords := bodyNBytes / 8
        let msgs ← splitWords fSplitMethod (body.drop (8 * nWords)) []
          (words (body.take (8 * nWords)))
        let rest ← subFrames fSplitMethod numSource (buf.drop length)
        return buf.take SubTimeFrame.Header.size :: msgs ++ rest

/-- What a call finds in `magic` and in the memory of the message for the header. -/
structure Uninitialised where
  magic : BitVec 64
  tfHeader : TimeFrame.Header

/-- The part of the call that comes after the read of the header message. The
buffer for the body starts out as zeros. -/
def readFrame (s : Player) (msgTFHeader : Bytes) : Except Fault (Player × Bool) := do
  let tfHeader := TimeFrame.Header.decode msgTFHeader
  if s.fInputFile.gcount < TimeFrame.Header.size - 8 then .ok (s, false)
  else if tfHeader.length.toNat < TimeFrame.Header.size then .error .lengthError
  else
    let size := tfHeader.length.toNat - TimeFrame.Header.size
    let (got, file) := s.fInputFile.read size
    let buf := InputFile.overwrite got (List.replicate size 0)
    if file.gcount < TimeFrame.Header.size then .ok ({ s with fInputFile := file }, false)
    else
      let parts ← subFrames s.fSplitMethod tfHeader.numSource.toNat buf
      let s := { s with
        fInputFile := file
        sent := s.sent ++ [msgTFHeader :: parts]
        fNumIteration := s.fNumIteration + 1 }
      return (s, !(decide (s.fMaxIterations > 0) && decide (s.fMaxIterations ≤ s.fNumIteration)))

/-- One call; the second result says whether the device stays in its loop. -/
def conditionalRun (mem : Uninitialised) (s : Player) : Except Fault (Player × Bool) :=
  if s.fInputFile.eofbit then .ok (s, false)
  else
    let (got, file) := s.fInputFile.read 8
    let magic : BitVec 64 := field 8 0 (InputFile.overwrite got (put 8 mem.magic))
    if magic = Filter.MAGIC then
      let (_, file) := file.read (Filter.Header.size - 8)
      let (got, file) := file.read TimeFrame.Header.size
      readFrame { s with fInputFile := file } (InputFile.overwrite got mem.tfHeader.encode)
    else if magic = FileSinkTrailer.MAGIC then
      let (_, file) := file.read (FileSinkTrailer.Trailer.size - 8)
      .ok ({ s with fInputFile := file }, false)
    else if magic ≠ TimeFrame.MAGIC then .ok ({ s with fInputFile := file }, false)
    else
      let (got, file) := file.read (TimeFrame.Header.size - 8)
      readFrame { s with fInputFile := file }
        (put 8 magic ++ InputFile.overwrite got (mem.tfHeader.encode.drop 8))

/-- Calls until one leaves the loop; the second result says that none did. -/
def run : List Uninitialised → Player → Except Fault (Player × Bool)
  | [], s => .ok (s, true)
  | mem :: mems, s => do
      let (s, go) ← conditionalRun mem s
      if go then run mems s else return (s, false)

/-- The replay of a file. -/
def replay (opts : Options) (mems : List Uninitialised) (contents : Bytes) :
    Except Fault (Player × Bool) :=
  run mems (preRun (initTask opts) contents)

end TFBFilePlayer
end Userworks
