import Userworks.Lib.Reads

/-!
The decoder of RECBE events. In raw mode an event is a block of samples of all
channels, in suppressed mode a list of records of 8 or 10 bytes; each record says
its own length.

The messages of the log are left out. The loop over the records takes fuel, since
a record may say that its length is 0. What the member `TdcHit[1]` of the local
variable of that loop holds before it is assigned is a parameter.
-/
namespace Userworks
namespace Recbe

open Reads

def T_RAW : Nat := 0x01
def T_SUPPRESS : Nat := 0x02
def T_RAW_OLD : Nat := 0x22
def T_SUPPRESS_OLD : Nat := 0x20

def N_CH : Nat := 48

structure Tdc where
  value : Nat
  hit : Bool
  deriving DecidableEq

structure UnpackedChannelData where
  channelId : Int
  length : Int
  countOverThreshold : Int
  adcSum : Int
  tdcHit : Int × Int
  deriving DecidableEq

structure Data where
  adc : List (List Nat) := []
  tdc : List (List Tdc) := []
  hitChannel : List UnpackedChannelData := []
  nSample : Int := 0
  type : Int := 0
  id : Int := 0
  sentNumber : Int := 0
  timeStamp : Int := 0
  length : Int := 0
  triggerCount : Nat := 0
  deriving DecidableEq

def ntohs (offset : Nat) : Reads Nat := do
  let high ← byte offset
  let low ← byte (offset + 1)
  return 256 * high.toNat + low.toNat

def ntohl (offset : Nat) : Reads Nat := do
  let high ← ntohs offset
  let low ← ntohs (offset + 2)
  return 65536 * high + low

def Header.sizeof : Nat := 12

/-- The assignments from the header at the start of `UnpackRaw` and `UnpackSupp`. -/
def readHeader (data : Data) : Reads Data := do
  let type ← byte 0
  let id ← byte 1
  let sentNumber ← ntohs 2
  let timeStamp ← ntohs 4
  let length ← ntohs 6
  let triggerCount ← ntohl 8
  return { data with
    type := type.toNat, id := id.toNat, sentNumber := sentNumber, timeStamp := timeStamp
    length := length, triggerCount := triggerCount }

/-- The inner loop of `UnpackRaw`: channel `j` of sample `i`. -/
def readSample (i : Nat) (data : Data) (j : Nat) : Reads Data := do
  let adc ← ntohs (Header.sizeof + N_CH * 2 * (i * 2) + 2 * j)
  let tval ← ntohs (Header.sizeof + N_CH * 2 * (i * 2 + 1) + 2 * j)
  let tdc : Tdc := { value := tval &&& 0x7fff, hit := tval &&& 0x8000 = 0x8000 }
  return { data with
    adc := data.adc.modify j (· ++ [adc])
    tdc := data.tdc.modify j (· ++ [tdc]) }

def unpackRaw (data : Data) : Reads Data := do
  let data ← readHeader data
  let nsample := data.length / 2 / 2 / N_CH
  let data := { data with
    nSample := nsample, adc := List.replicate N_CH [], tdc := List.replicate N_CH [] }
  (List.range nsample.toNat).foldlM
    (fun data i => (List.range N_CH).foldlM (readSample i) data) data

/-- `TdcHit[1]`, which keeps what it holds, `hit1`, when the length is none of the two. -/
def readTdcHit1 (hit1 : Int) (length pos : Nat) : Reads Int :=
  if length = 8 then pure 0
  else if length = 10 then do
    let tdcHit1 ← ntohs (pos + 8)
    return tdcHit1
  else pure hit1

/-- The record of a channel. -/
def readChannel (hit1 : Int) (pos : Nat) : Reads UnpackedChannelData := do
  let channelId ← byte pos
  let length ← byte (pos + 1)
  let countOverThreshold ← ntohs (pos + 2)
  let adcSum ← ntohs (pos + 4)
  let tdcHit0 ← ntohs (pos + 6)
  let tdcHit1 ← readTdcHit1 hit1 length.toNat pos
  return {
    channelId := channelId.toNat, length := length.toNat
    countOverThreshold := countOverThreshold, adcSum := adcSum, tdcHit := (tdcHit0, tdcHit1) }

/-- The loop of `UnpackSupp` from the position of a record on, none without fuel. -/
def channelLoop (hit1 : Nat → Int) (limit : Nat) :
    Nat → Nat → Reads (Option (List UnpackedChannelData))
  | 0, _ => pure none
  | fuel + 1, pos =>
      if pos + 8 ≤ limit then do
        let hit ← readChannel (hit1 pos) pos
        let rest ← channelLoop hit1 limit fuel (pos + hit.length.toNat)
        return rest.map (hit :: ·)
      else pure (some [])

def unpackSupp (hit1 : Nat → Int) (fuel : Nat) (data : Data) : Reads (Option Data) := do
  let data ← readHeader data
  let data := { data with nSample := 0, adc := [], tdc := [] }
  let hits ← channelLoop hit1 (data.length.toNat + Header.sizeof) fuel Header.sizeof
  return hits.map fun hits => { data with hitChannel := hits }

/-- The return value and the data. -/
def unpack (hit1 : Nat → Int) (fuel : Nat) (data : Data) : Reads (Option (Int × Data)) := do
  let type ← byte 0
  if type.toNat = T_RAW ∨ type.toNat = T_RAW_OLD then do
    let data ← unpackRaw data
    return some (0, data)
  else if type.toNat = T_SUPPRESS ∨ type.toNat = T_SUPPRESS_OLD then do
    let data ← unpackSupp hit1 fuel data
    return data.map fun data => (0, data)
  else return some (-1, data)

end Recbe
end Userworks
