import Userworks.E16.TaskProcessorMT
import Userworks.Utility.FileSplitting

/-!
The file sink, `src/e16/FileSink/FileSink.cxx`. With several threads and a file type
that is compressed, the worker threads compress the messages and the merger writes
them; otherwise the device writes them itself and the file compresses.
-/
namespace Userworks.E16

/-- The parts of a message. -/
abbrev FairMQParts := List Bytes

/-- `fWorker` tells whether there are worker threads. -/
structure FileSink where
  fMaxIteration : Nat
  fMergeMessage : Bool
  fWorker : Bool
  files : Files
  fFile : FileUtil
  fNWrite : Nat := 0
  fStopRequested : Bool := false

namespace FileSink

/-- What is written of a message. -/
def writes (fMergeMessage : Bool) (msgParts : FairMQParts) : List Bytes :=
  if fMergeMessage then [msgParts.flatten] else msgParts

/-- `Compressor::ExtToFormat` finds a format that compresses, as in a build with `USE_LZMA`. -/
def compresses (fFileExtension : Text) : Bool :=
  [".gz".toList, ".bz".toList, ".xz".toList, ".zst".toList].any
    (FileUtil.contains · fFileExtension)

/-- `fMaxBranchSize` starts with what `m` is. -/
def initTask (o : Options) (m fMaxIteration : Nat) (fMergeMessage : Bool) (fNThreads : Nat)
    (files : Files) : FileSink :=
  let f := FileUtil.init o { fMaxBranchSize := m }
  { fMaxIteration := fMaxIteration
    fMergeMessage := fMergeMessage
    fWorker := decide (1 < fNThreads) && compresses f.fExt
    files := files
    fFile := f }

section

-- The date in a file name, `Compressor::Compress` for a file type with the buffer of the file, and
-- the function that the sink compresses with, which is called without that buffer.
variable (date : Text) (compress : Text → Bytes → Bytes) (fCompress : Bytes → Bytes)

/-- The parts have been written when the number of writes is looked at. -/
def writeMultipartData (sink : FileSink) (msgParts : FairMQParts) : Except FileFault FileSink :=
  if sink.fStopRequested then .ok sink
  else do
    let ws := writes sink.fMergeMessage msgParts
    let (files, f) ← FileUtil.writeAll date compress (sink.files, sink.fFile) ws
    let n := (sink.fNWrite + ws.length) % 2 ^ 64
    .ok { sink with
      files := files
      fFile := f
      fNWrite := n
      fStopRequested := decide (0 < sink.fMaxIteration ∧ n = sink.fMaxIteration) }

def compressMultipartData (fMergeMessage : Bool) (msgParts : FairMQParts) : FairMQParts :=
  (writes fMergeMessage msgParts).map fCompress

/-- The handlers that `PreRun` gives to the threads. -/
def handlers (fMergeMessage : Bool) : Handlers FileFault FileSink FairMQParts FairMQParts where
  stopRequested := fStopRequested
  handleInput := compressMultipartData fCompress fMergeMessage
  handleOutput := writeMultipartData date compress
  stopped := fun _ _ hstop => if_pos hstop

/-- `Compressor::Format::none` is the format of `.dat`. -/
def setCompressFunc (f : FileUtil) : FileUtil := { f with fCompressor := some ".dat".toList }

/-- The answer of `Open` is not looked at. -/
def preRun (fRunNumber : Int) (sink : FileSink) : Except FileFault FileSink := do
  let f := FileUtil.clearBranch { sink.fFile with fRun := fRunNumber }
  let (_, files, f) ← FileUtil.openFile date (sink.files, f) []
  .ok { sink with
    files := files
    fFile := if sink.fWorker then setCompressFunc f else f
    fNWrite := 0
    fStopRequested := false }

end

end FileSink

end Userworks.E16
