import Userworks.Lib.LittleEndian

/-!
The packed headers of the data stream: time frame, sub time frame, heartbeat
frame, filter block and trigger times. A message is its bytes; `encode` lays a
header out and `decode` is the cast of a message to the header structure.
-/
namespace Userworks

namespace TimeFrame

def MAGIC : BitVec 64 := 0x004d5246454d4954#64

structure Header where
  magic : BitVec 64 := MAGIC
  length : BitVec 32 := 0
  hLength : BitVec 16 := 24
  type : BitVec 16 := 0
  timeFrameId : BitVec 32 := 0
  numSource : BitVec 32 := 0
  deriving DecidableEq

def Header.size : Nat := 24

def Header.encode (h : Header) : Bytes :=
  put 8 h.magic ++ (put 4 h.length ++ (put 2 h.hLength ++ (put 2 h.type ++
    (put 4 h.timeFrameId ++ put 4 h.numSource))))

def Header.decode (bs : Bytes) : Header where
  magic := field 8 0 bs
  length := field 4 8 bs
  hLength := field 2 12 bs
  type := field 2 14 bs
  timeFrameId := field 4 16 bs
  numSource := field 4 20 bs

@[simp] theorem Header.length_encode (h : Header) : h.encode.length = Header.size := by
  simp [encode, size]

theorem Header.decode_encode (h : Header) (rest : Bytes) : decode (h.encode ++ rest) = h := by
  simp [decode, encode, List.append_assoc, field_put_skip]

/-- A message that is the header and nothing else. -/
@[simp] theorem Header.decode_encode_self (h : Header) : decode h.encode = h := by
  have hdecode := h.decode_encode []
  rwa [List.append_nil] at hdecode

theorem Header.field_encode (h : Header) : field 8 0 h.encode = h.magic := by
  rw [encode, field_put_self]

end TimeFrame

namespace SubTimeFrame

def MAGIC : BitVec 64 := 0x00454d4954425553#64
def TDC64L_V1 : BitVec 32 := 1
def TDC64H : BitVec 32 := 2
def TDC64L : BitVec 32 := 3
def TDC64H_V3 : BitVec 32 := 5
def TDC64L_V3 : BitVec 32 := 6
def NULDEV : BitVec 32 := 0

structure Header where
  magic : BitVec 64 := MAGIC
  length : BitVec 32 := 0
  hLength : BitVec 16 := 48
  type : BitVec 16 := 0
  timeFrameId : BitVec 32 := 0
  femType : BitVec 32 := 0
  femId : BitVec 32 := 0
  numMessages : BitVec 32 := 0
  timeSec : BitVec 64 := 0
  timeUSec : BitVec 64 := 0
  deriving DecidableEq

def Header.size : Nat := 48

def Header.encode (h : Header) : Bytes :=
  put 8 h.magic ++ (put 4 h.length ++ (put 2 h.hLength ++ (put 2 h.type ++
    (put 4 h.timeFrameId ++ (put 4 h.femType ++ (put 4 h.femId ++ (put 4 h.numMessages ++
      (put 8 h.timeSec ++ put 8 h.timeUSec))))))))

def Header.decode (bs : Bytes) : Header where
  magic := field 8 0 bs
  length := field 4 8 bs
  hLength := field 2 12 bs
  type := field 2 14 bs
  timeFrameId := field 4 16 bs
  femType := field 4 20 bs
  femId := field 4 24 bs
  numMessages := field 4 28 bs
  timeSec := field 8 32 bs
  timeUSec := field 8 40 bs

@[simp] theorem Header.length_encode (h : Header) : h.encode.length = Header.size := by
  simp [encode, size]

theorem Header.decode_encode (h : Header) (rest : Bytes) : decode (h.encode ++ rest) = h := by
  simp [decode, encode, List.append_assoc, field_put_skip]

/-- A message that is the header and nothing else. -/
@[simp] theorem Header.decode_encode_self (h : Header) : decode h.encode = h := by
  have hdecode := h.decode_encode []
  rwa [List.append_nil] at hdecode

theorem Header.field_encode (h : Header) : field 8 0 h.encode = h.magic := by
  rw [encode, field_put_self]

end SubTimeFrame

namespace HeartbeatFrame

def MAGIC : BitVec 64 := 0x0054414542545248#64

end HeartbeatFrame

namespace Filter

def MAGIC : BitVec 64 := 0x0049474f4c544c46#64

structure Header where
  magic : BitVec 64 := MAGIC
  length : BitVec 32 := 0
  hLength : BitVec 16 := 56
  type : BitVec 16 := 0
  timeFrameId : BitVec 32 := 0
  numTrigs : BitVec 32 := 0
  workerId : BitVec 32 := 0
  numMessages : BitVec 32 := 0
  elapseTime : BitVec 32 := 0
  reserve : BitVec 32 := 0xff00ff00#32
  timeSec : BitVec 64 := 0
  timeUSec : BitVec 64 := 0
  deriving DecidableEq

def Header.size : Nat := 56

def Header.encode (h : Header) : Bytes :=
  put 8 h.magic ++ (put 4 h.length ++ (put 2 h.hLength ++ (put 2 h.type ++
    (put 4 h.timeFrameId ++ (put 4 h.numTrigs ++ (put 4 h.workerId ++ (put 4 h.numMessages ++
      (put 4 h.elapseTime ++ (put 4 h.reserve ++ (put 8 h.timeSec ++ put 8 h.timeUSec))))))))))

def Header.decode (bs : Bytes) : Header where
  magic := field 8 0 bs
  length := field 4 8 bs
  hLength := field 2 12 bs
  type := field 2 14 bs
  timeFrameId := field 4 16 bs
  numTrigs := field 4 20 bs
  workerId := field 4 24 bs
  numMessages := field 4 28 bs
  elapseTime := field 4 32 bs
  reserve := field 4 36 bs
  timeSec := field 8 40 bs
  timeUSec := field 8 48 bs

@[simp] theorem Header.length_encode (h : Header) : h.encode.length = Header.size := by
  simp [encode, size]

theorem Header.decode_encode (h : Header) (rest : Bytes) : decode (h.encode ++ rest) = h := by
  simp [decode, encode, List.append_assoc, field_put_skip]

def TDC_MAGIC : BitVec 64 := 0x00454d4954475254#64

structure TrgTimeHeader where
  magic : BitVec 64 := TDC_MAGIC
  length : BitVec 32 := 0
  hLength : BitVec 16 := 16
  type : BitVec 16 := 0
  deriving DecidableEq

def TrgTimeHeader.size : Nat := 16

def TrgTimeHeader.encode (h : TrgTimeHeader) : Bytes :=
  put 8 h.magic ++ (put 4 h.length ++ (put 2 h.hLength ++ put 2 h.type))

def TrgTimeHeader.decode (bs : Bytes) : TrgTimeHeader where
  magic := field 8 0 bs
  length := field 4 8 bs
  hLength := field 2 12 bs
  type := field 2 14 bs

@[simp] theorem TrgTimeHeader.length_encode (h : TrgTimeHeader) :
    h.encode.length = TrgTimeHeader.size := by
  simp [encode, size]

theorem TrgTimeHeader.decode_encode (h : TrgTimeHeader) (rest : Bytes) :
    decode (h.encode ++ rest) = h := by
  simp [decode, encode, List.append_assoc, field_put_skip]

structure TrgTime where
  time : BitVec 32
  type : BitVec 32
  deriving DecidableEq

def TrgTime.size : Nat := 8

def TrgTime.encode (t : TrgTime) : Bytes := put 4 t.time ++ put 4 t.type

def TrgTime.decode (bs : Bytes) : TrgTime where
  time := field 4 0 bs
  type := field 4 4 bs

@[simp] theorem TrgTime.length_encode (t : TrgTime) : t.encode.length = TrgTime.size := by
  simp [encode, size]

theorem TrgTime.decode_encode (t : TrgTime) (rest : Bytes) : decode (t.encode ++ rest) = t := by
  simp [decode, encode, List.append_assoc, field_put_skip]

end Filter

namespace FileSinkHeader

def MAGIC : BitVec 64 := 0x004b4e53454c4946#64

end FileSinkHeader

namespace FileSinkTrailer

def MAGIC : BitVec 64 := 0x004c5254454c4946#64

def Trailer.size : Nat := 304

end FileSinkTrailer
end Userworks
