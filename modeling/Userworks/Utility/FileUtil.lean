import Mathlib.Algebra.Group.Int.Defs
import Userworks.Lib.Text

/-!
Output files in branches, `src/utility/FileUtil.cxx`. The files are a map from
names to contents. What is written goes to the file the stream is open on, and
nowhere while the stream is closed.
-/
namespace Userworks.E16

abbrev Bytes := List UInt8

abbrev Files := Text → Option Bytes

/-- The exceptions of `std::stoll` and of an empty `std::function`, and the operations that the
language leaves undefined. -/
inductive FileFault where
  | invalidArgument
  | outOfRange
  | badFunctionCall
  | undefined
  deriving DecidableEq

/-! ### Formatted numbers -/

/-- A field at the front of a text, an opening brace, a colon, digits, `d` and a closing brace:
its digits and what follows it. -/
def field : Text → Option (Text × Text)
  | '{' :: ':' :: rest =>
      match rest.takeWhile isdigit, rest.dropWhile isdigit with
      | [], _ => none
      | num, 'd' :: '}' :: tail => some (num, tail)
      | _, _ => none
  | _ => none

/-- What `.` stands for in a regular expression. -/
def isDot (c : Char) : Bool := c ≠ '\n' && c ≠ '\r'

/-- The last field that `.*` can reach, with what stands before and after it. -/
def lastField : Text → Option (Text × Text × Text)
  | [] => none
  | c :: cs =>
      match if isDot c then lastField cs else none with
      | some (pre, num, tail) => some (c :: pre, num, tail)
      | none => (field (c :: cs)).map fun (num, tail) => ([], num, tail)

/-- `std::regex_search`: the first place where the expression matches. -/
def regexSearch : Text → Option (Text × Text × Text)
  | [] => none
  | c :: cs =>
      match lastField (c :: cs) with
      | some (pre, num, tail) => some (pre, num, tail.takeWhile isDot)
      | none => regexSearch cs

/-- An integer as a stream puts it out. -/
def decimalText (a : Int) : Text :=
  if a < 0 then '-' :: Nat.toDigits 10 a.natAbs else Nat.toDigits 10 a.toNat

/-- `std::setw` takes an `int`. -/
def setw (width : Nat) : Nat := (BitVec.ofNat 32 width).toInt.toNat

def padded (width : Nat) (fill : Char) (text : Text) : Text :=
  List.replicate (width - text.length) fill ++ text

/-- The width has decimal digits only, so a number is never put out as a hexadecimal one. -/
def toFormattedString (form : Text) (a : Int) : Except FileFault Text :=
  match regexSearch form with
  | none => .error .invalidArgument
  | some (pre, num, post) =>
      if 2 ^ 63 ≤ decimal num then .error .outOfRange
      else
        let fill := if num.head? = some '0' then '0' else ' '
        .ok (pre ++ padded (setw (decimal num)) fill (decimalText a) ++ post)

/-! ### The state -/

inductive SplitOption where
  | rawSize
  | compressedSize
  | numIteration
  deriving DecidableEq

/-- A stream that is opened while it is open fails, and stays on its file. -/
inductive Stream where
  | closed
  | writing (name : Text)
  | failed (name : Text)
  deriving DecidableEq

/-- `fMaxBranchSize` has no initial value of its own. -/
structure FileUtil where
  fMaxBranchSize : Nat
  fName : Text := []
  fRun : Int := -1
  fRunNumberFormat : Text := []
  fFirstBranchNum : Int := 0
  fBranchNum : Int := -1
  fBranchNumberFormat : Text := []
  fOut : Stream := .closed
  fBranchRawSize : List Nat := []
  fBranchCompressedSize : List Nat := []
  fBranchFilePath : List Text := []
  fBranchNumIteration : List Nat := []
  fPrefix : Text := []
  fExt : Text := []
  fCompressor : Option Text := none
  fSplit : Option SplitOption := none
  fOpenmode : Text := []

/-- The program options that `Init` reads, numbers already converted. -/
structure Options where
  run : Option Int := none
  runNumber : Option Int := none
  path : Option Text := none
  ext : Option Text := none
  filePrefix : Option Text := none
  runNumberFormat : Text := []
  branchNumberFormat : Text := []
  maxSize : Option Nat := none
  split : Text := []
  openmode : Text := []

namespace FileUtil

def fileTypes : List Text :=
  [".bz2".toList, ".dat".toList, ".gz".toList, ".xz".toList, ".zst".toList]

def setExtension (f : FileUtil) (ext : Text) : FileUtil :=
  if fileTypes.contains ext then
    { f with fExt := ext, fCompressor := some (f.fCompressor.getD ext) }
  else f

/-- The mode is kept as it is given, not in lower case. -/
def setOpenmode (f : FileUtil) (mode : Text) : FileUtil :=
  if ["create".toList, "new".toList, "recreate".toList, "read".toList].contains
      (mode.map Char.toLower) then
    { f with fOpenmode := mode }
  else f

def setSplit (f : FileUtil) (option : Text) : FileUtil :=
  let s := option.map Char.toLower
  if s = "raw-size".toList then { f with fSplit := some .rawSize }
  else if s = "compressed-size".toList then { f with fSplit := some .compressedSize }
  else if s = "num-iteration".toList then { f with fSplit := some .numIteration }
  else { f with fSplit := none }

/-- The product has 64 bits. Where it leaves the range of `int64_t`, which C++ does not
define, it is taken to wrap here, also when `init` sets the size. -/
def setMaxBranchSizeInMegaBytes (f : FileUtil) (n : Nat) : FileUtil :=
  { f with fMaxBranchSize := n * 1024 * 1024 % 2 ^ 64 }

def init (o : Options) (f : FileUtil) : FileUtil :=
  let f := { f with fRun := o.runNumber.getD (o.run.getD f.fRun) }
  let f :=
    match o.path with
    | some path => { f with fName := path }
    | none =>
        let f := match o.ext with
          | some ext => f.setExtension ext
          | none => f
        { f with
          fPrefix := o.filePrefix.getD f.fPrefix
          fRunNumberFormat := o.runNumberFormat
          fBranchNumberFormat := o.branchNumberFormat }
  let f := match o.maxSize with
    | some n => f.setMaxBranchSizeInMegaBytes n
    | none => f
  (f.setSplit o.split).setOpenmode o.openmode

def clearBranch (f : FileUtil) : FileUtil :=
  { f with
    fBranchRawSize := []
    fBranchCompressedSize := []
    fBranchFilePath := []
    fBranchNumIteration := []
    fBranchNum := f.fFirstBranchNum }

def close (f : FileUtil) : FileUtil :=
  if f.fOut = .closed then f else { f with fOut := .closed, fName := [] }

/-! ### Opening a branch -/

section

-- The date as `GenerateFileName` formats it, and `Compressor::Compress` for a file type.
variable (date : Text) (compress : Text → Bytes → Bytes)

/-- `name.find(ext) != npos` -/
def contains (ext name : Text) : Bool := name.tails.any (ext.isPrefixOf ·)

def generateFileName (f : FileUtil) (name : Text) : Except FileFault Text :=
  if [".dat".toList, ".gz".toList, ".bz2".toList, ".xz".toList, ".zst".toList,
      ".root".toList].any (contains · name) then .ok name
  else do
    let fileName ←
      if name ≠ [] then .ok name
      else if 0 ≤ f.fRun then toFormattedString f.fRunNumberFormat f.fRun
      else .ok date
    let branch ←
      if 0 ≤ f.fBranchNum then toFormattedString f.fBranchNumberFormat f.fBranchNum else .ok []
    .ok (fileName ++ branch ++ f.fExt)

/-- `std::filesystem::path::operator/=` -/
def joinPath (p q : Text) : Text :=
  if q.head? = some '/' then q
  else if p = [] ∨ p.getLast? = some '/' then p ++ q
  else p ++ '/' :: q

/-- The name under which a file is to be opened. -/
def chooseName (f : FileUtil) (name : Text) : Except FileFault FileUtil :=
  if f.fName = [] then do
    let f := if f.fSplit = none then { f with fBranchNum := -1 } else f
    let fileName ← generateFileName date f name
    .ok { f with fName := joinPath f.fPrefix fileName }
  else if f.fExt = [] then
    let ext := (fileTypes.filter (contains · f.fName)).getLastD []
    .ok (if ext ≠ ".dat".toList then f.setExtension ext else f)
  else .ok f

/-- With `create` or `new` a file that is there is left alone. -/
def refuses (files : Files) (f : FileUtil) : Bool :=
  (files f.fName).isSome && (f.fOpenmode = "create".toList || f.fOpenmode = "new".toList)

/-- `fOut.open(fName, mode)`: the file is emptied unless the mode is `update`. -/
def openStream (files : Files) (f : FileUtil) : Files × FileUtil :=
  match f.fOut with
  | .closed =>
      let kept := if f.fOpenmode = "update".toList then (files f.fName).getD [] else []
      (Function.update files f.fName (some kept), { f with fOut := .writing f.fName })
  | .writing name => (files, { f with fOut := .failed name })
  | .failed name => (files, { f with fOut := .failed name })

def pushBranch (f : FileUtil) : FileUtil :=
  let f := if f.fName = "/dev/null".toList then { f with fBranchNum := -1, fSplit := none } else f
  { f with
    fBranchRawSize := f.fBranchRawSize ++ [0]
    fBranchCompressedSize := f.fBranchCompressedSize ++ [0]
    fBranchNumIteration := f.fBranchNumIteration ++ [0]
    fBranchFilePath := f.fBranchFilePath ++ [f.fName] }

def openFile (s : Files × FileUtil) (name : Text) :
    Except FileFault (Bool × Files × FileUtil) := do
  let f ← chooseName date s.2 name
  if refuses s.1 f then .ok (false, s.1, f)
  else
    let (files, f) := openStream s.1 f
    .ok (true, files, f.pushBranch)

/-! ### Writing -/

def emit (files : Files) (f : FileUtil) (src : Bytes) : Files :=
  match f.fOut with
  | .writing name => Function.update files name (some ((files name).getD [] ++ src))
  | _ => files

/-- `v.back() += n` on a vector of `uint64_t` -/
def addBack (v : List Nat) (n : Nat) : Except FileFault (List Nat) :=
  match v.getLast? with
  | none => .error .undefined
  | some last => .ok (v.dropLast ++ [(last + n) % 2 ^ 64])

def back (v : List Nat) : Except FileFault Nat :=
  match v.getLast? with
  | none => .error .undefined
  | some last => .ok last

def emitCompressed (files : Files) (f : FileUtil) (src : Bytes) :
    Except FileFault (Files × FileUtil) :=
  if f.fExt = [] ∨ f.fExt = ".dat".toList then .ok (emit files f src, f)
  else
    match f.fCompressor with
    | none => .error .badFunctionCall
    | some format => do
        let ret := compress format src
        let sizes ← addBack f.fBranchCompressedSize ret.length
        .ok (emit files f ret, { f with fBranchCompressedSize := sizes })

def count (f : FileUtil) (length : Nat) : Except FileFault FileUtil := do
  let sizes ← addBack f.fBranchRawSize length
  let iterations ← addBack f.fBranchNumIteration 1
  .ok { f with fBranchRawSize := sizes, fBranchNumIteration := iterations }

/-- `fSplit && fSplit()` -/
def splits (f : FileUtil) : Except FileFault Bool :=
  match f.fSplit with
  | none => .ok false
  | some .rawSize => (back f.fBranchRawSize).map (decide <| f.fMaxBranchSize ≤ ·)
  | some .compressedSize => (back f.fBranchCompressedSize).map (decide <| f.fMaxBranchSize ≤ ·)
  | some .numIteration => (back f.fBranchNumIteration).map (decide <| f.fMaxBranchSize ≤ ·)

/-- `++fBranchNum` on an `int` -/
def nextBranch (f : FileUtil) : Except FileFault FileUtil :=
  if f.fBranchNum < 0 then .ok f
  else if f.fBranchNum + 1 < 2 ^ 31 then .ok { f with fBranchNum := f.fBranchNum + 1 }
  else .error .undefined

/-- The next branch is opened without a look at the answer of `Open`. -/
def write (s : Files × FileUtil) (src : Bytes) : Except FileFault (Files × FileUtil) := do
  let (files, f) ← emitCompressed compress s.1 s.2 src
  let f ← count f src.length
  if ← splits f then
    let f ← nextBranch f.close
    let (_, s) ← openFile date (files, f) []
    .ok s
  else .ok (files, f)

end

end FileUtil

end Userworks.E16
