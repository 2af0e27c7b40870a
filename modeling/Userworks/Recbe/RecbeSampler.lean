import Userworks.Lib.Arrivals
import Userworks.LogicFilter.FrameHeaders

/-!
The sampler of a RECBE board: each `ConditionalRun` call reads one event, a header of 12
bytes and the body that it announces, from the TCP connection and sends it as a sub time
frame. A read that times out is repeated once.

What a call finds in memory that it has not written, the clock and the other side of the
channels are parameters of the call. The messages of the log are left out, with the
variables that only they use.
-/
namespace Userworks

/-- The connection to a board: what still arrives, and behind it the `errno` of each
`recv` after the disconnect. With neither, a `recv` waits. -/
structure CliSock where
  arrivals : List (Arrival UInt8)
  closed : List Int := []
  deriving DecidableEq

namespace CliSock

def EAGAIN : Int := 11

/-- One `recv` of at most `length` bytes, or the `errno` that stands when it gives none. -/
def recv (length : Nat) : CliSock → Option (Except Int Bytes × CliSock)
  | { arrivals := .data first more :: rest, closed } =>
      some (.ok ((first :: more).take length),
        { arrivals := Arrival.putBack ((first :: more).drop length) rest, closed })
  | { arrivals := .timeout :: rest, closed } => some (.error EAGAIN, { arrivals := rest, closed })
  | { arrivals := [], closed := errno :: closed } =>
      some (.error errno, { arrivals := [], closed })
  | { arrivals := [], closed := [] } => none

theorem recv_pos {length : Nat} {sock sock' : CliSock} {bytes : Bytes}
    (h : recv length sock = some (.ok bytes, sock')) (hpos : 0 < length) : 0 < bytes.length := by
  fun_cases recv length sock with
  | case1 first more rest closed =>
      cases h
      rw [List.length_take, List.length_cons]
      omega
  | case2 => cases h
  | case3 => cases h
  | case4 => cases h

/-- The bytes received and the flag. -/
def receive (length : Nat) (sock : CliSock) : Option (Bytes × Int × CliSock) :=
  if _hpos : 0 < length then
    match _hrecv : recv length sock with
    | none => none
    | some (.error errno, sock') => some ([], errno, sock')
    | some (.ok bytes, sock') =>
        (receive (length - bytes.length) sock').map
          fun (later, flag, sock'') => (bytes ++ later, flag, sock'')
  else some ([], 0, sock)
termination_by length
decreasing_by
  have := recv_pos _hrecv _hpos
  omega

end CliSock

namespace Recbe

/-- The number in a field of network byte order. -/
def ntoh (count offset : Nat) (bs : Bytes) : BitVec (8 * count) :=
  BitVec.ofNat _ (ofLE ((bs.drop offset).take count).reverse)

def Header.size : Nat := 12

def type (header : Bytes) : BitVec 8 := field 1 0 header
def id (header : Bytes) : BitVec 8 := field 1 1 header
def len (header : Bytes) : BitVec 16 := ntoh 2 6 header
def trigCount (header : Bytes) : BitVec 32 := ntoh 4 8 header

end Recbe

namespace SubTimeFrame

def RECBE : BitVec 32 := 0x0000be00

end SubTimeFrame

namespace RecbeSampler

open CliSock

/-- The output channel always has a sub-channel. -/
structure Sampler where
  fSock : CliSock
  fNumDestination : Nat := 1
  hdestination : 0 < fNumDestination := by decide

/-- What a call finds: the memory of `recbe_header` and of the two messages, the time,
whether there is a channel for the data quality monitor that takes the parts, and whether
the output channel takes them before a new state is pending. -/
structure Call where
  recbe_header : Nat → UInt8 := fun _ => 0
  msgSTFHeader : SubTimeFrame.Header := {}
  msg : Nat → UInt8 := fun _ => 0
  timeSec : BitVec 64 := 0
  timeUSec : BitVec 64 := 0
  dqm : Bool := false
  output : Bool := true

/-- The two messages of a sub time frame. -/
structure Parts where
  msgSTFHeader : SubTimeFrame.Header
  msg : Bytes

/-- The parts of a call that has them ready, and the channels that took them; on the
output channel `direction` is the sub-channel. -/
structure Published where
  outParts : Parts
  dqm : Bool
  output : Bool
  direction : Nat

/-- The `size` bytes at the start of a memory into which `bytes` were written. -/
def fill (memory : Nat → UInt8) (size : Nat) (bytes : Bytes) : Bytes :=
  bytes ++ (List.range' bytes.length (size - bytes.length)).map memory

/-- What comes of a read that may be repeated. -/
inductive Outcome where
  | complete
  | error
  | incomplete
  deriving DecidableEq

/-- The calls of `Receive` for the header, and in the same way for the body: after a
timeout, and only then, the rest is asked for once more. -/
def receiveRetry (length : Nat) (sock : CliSock) : Option (Bytes × Outcome × CliSock) := do
  let (bytes, flag, sock) ← receive length sock
  if bytes.length < length then
    if flag = EAGAIN then do
      let (more, _, sock) ← receive (length - bytes.length) sock
      if bytes.length + more.length < length then return (bytes ++ more, .incomplete, sock)
      else return (bytes ++ more, .complete, sock)
    else return (bytes, .error, sock)
  else return (bytes, .complete, sock)

/-- The parts for an event; `hLength` and `type` of the message are not set. -/
def outParts (call : Call) (header body : Bytes) : Parts where
  msgSTFHeader := { call.msgSTFHeader with
    magic := SubTimeFrame.MAGIC
    timeFrameId := Recbe.trigCount header
    femType := (Recbe.type header).setWidth 32 &&& 0xff ||| SubTimeFrame.RECBE &&& 0xff00
    femId := (Recbe.id header).setWidth 32 &&& 0xff
    length := BitVec.ofNat 32 (SubTimeFrame.Header.size + Recbe.Header.size + body.length)
    numMessages := 2
    timeSec := call.timeSec
    timeUSec := call.timeUSec }
  msg := header ++ body

/-- A header that stays incomplete does not end the call, and a body that ends with
another error than a timeout does not keep it from being sent. -/
def conditionalRun (s : Sampler) (call : Call) :
    Option (Option Published × Sampler) := do
  let (bytes, outcome, sock) ← receiveRetry Recbe.Header.size s.fSock
  if outcome = .error then return (none, { s with fSock := sock })
  else do
    let header := fill call.recbe_header Recbe.Header.size bytes
    let bodysize := (Recbe.len header).toNat
    let (recbe_body, outcome', sock) ← receiveRetry bodysize sock
    if outcome = .incomplete ∨ outcome' = .incomplete then
      return (none, { s with fSock := sock })
    else
      let body := fill (fun i => call.msg (Recbe.Header.size + i)) bodysize recbe_body
      let published : Published :=
        { outParts := outParts call header body
          dqm := call.dqm
          output := call.output
          direction := (Recbe.trigCount header).toNat % s.fNumDestination }
      return (some published, { s with fSock := sock })

/-- The calls in turn, up to one that waits for the connection. -/
def run (s : Sampler) : List Call → List Published
  | [] => []
  | call :: calls =>
      match conditionalRun s call with
      | none => []
      | some (published, s') => published.toList ++ run s' calls

end RecbeSampler
end Userworks
