import Userworks.Lib.Datagrams
import Userworks.Lib.LittleEndian
import Userworks.Lib.Text

/-!
Register access over UDP. `UDPRBCP` sends one request and waits for its reply, and sends
the request again when none has come in time. `FPGAModule` writes and reads the bytes of
a word one by one.

Every `DoRBCP` opens a socket of its own and does not bind it, so that the system chooses the
port, and the reply is not compared with the request.
What is printed is left out. `rd_buffer_` is kept up to `length_rd_`, and the buffer of
the data to write up to the length that was set; both callers set one byte.
-/
namespace Userworks

open Datagrams

/-- An `rbcp_header`, with the address in network order. -/
structure RbcpHeader where
  type : BitVec 8
  command : BitVec 8 := 0
  id : BitVec 8 := 0
  length : BitVec 8 := 0
  address : BitVec 32 := 0

def RbcpHeader.size : Nat := 8

def RbcpHeader.bytes (h : RbcpHeader) : Bytes :=
  put 1 h.type ++ (put 1 h.command ++ (put 1 h.id ++ (put 1 h.length ++ put 4 h.address)))

def htonl (x : BitVec 32) : BitVec 32 := field 4 0 (put 4 x).reverse

/-- A program that sends and receives packets of bytes. -/
abbrev Client (α : Type) := Program Bytes Bytes Fault α

structure UDPRBCP where
  sendHeader_ : RbcpHeader
  wd_buffer_ : Bytes := []
  rd_buffer_ : Bytes := []

namespace UDPRBCP

def udp_buf_size_ : Nat := 4096
def rbcp_ver_ : BitVec 8 := 0xFF
def rbcp_cmd_wr_ : BitVec 8 := 0x80
def rbcp_cmd_rd_ : BitVec 8 := 0xC0

def setWD (u : UDPRBCP) (address : BitVec 32) (length : Nat) (sendData : Bytes) : UDPRBCP :=
  { u with
    sendHeader_ := { u.sendHeader_ with
      command := rbcp_cmd_wr_
      length := BitVec.ofNat 8 length
      address := htonl address }
    wd_buffer_ := sendData.take length }

def setRD (u : UDPRBCP) (address : BitVec 32) (length : Nat) : UDPRBCP :=
  { u with
    sendHeader_ := { u.sendHeader_ with
      command := rbcp_cmd_rd_
      length := BitVec.ofNat 8 length
      address := htonl address } }

/-- The `cmdPckLen` bytes of `sndBuf`. -/
def sndBuf (u : UDPRBCP) : Bytes :=
  u.sendHeader_.bytes ++
    if u.sendHeader_.command = rbcp_cmd_wr_ then u.wd_buffer_.take u.sendHeader_.length.toNat
    else []

def nextId (u : UDPRBCP) : UDPRBCP :=
  { u with sendHeader_ := { u.sendHeader_ with id := u.sendHeader_.id + 1 } }

/-- What is done with a packet that was received. -/
def received (u : UDPRBCP) (rcvdBuf : Bytes) : Client (Int × UDPRBCP) :=
  if rcvdBuf.length < RbcpHeader.size then .done (-1, u)
  else if 0x0f &&& rcvdBuf.getD 1 0 ≠ 0x8 then .done (-1, u)
  -- `rcvdBuf[rcvdBytes]=0` behind a full buffer
  else if udp_buf_size_ ≤ rcvdBuf.length then .fault .undefined
  else if u.sendHeader_.command = rbcp_cmd_rd_ then
    .done (rcvdBuf.length, { u with rd_buffer_ := rcvdBuf.drop RbcpHeader.size })
  else .done (rcvdBuf.length, u)

/-- The loop over `numReTrans`, by the number of rounds that are left. In the last round
the request is sent once more, but its reply is not waited for. -/
def reTrans (sock : Nat) : Nat → UDPRBCP → Client (Int × UDPRBCP)
  | 0, u => .done (-3, u)
  | rounds + 1, u => .wait sock fun
      | none => .send sock u.nextId.sndBuf (reTrans sock rounds u.nextId)
      | some rcvdBuf => u.received (rcvdBuf.take udp_buf_size_)

def doRBCP (u : UDPRBCP) : Client (Int × UDPRBCP) :=
  .socket fun sock => .send sock u.sndBuf (reTrans sock 3 u)

end UDPRBCP

structure FPGAModule where
  sendHeader_ : RbcpHeader
  rd_data_ : Bytes := []
  rd_word_ : BitVec 32 := 0

namespace FPGAModule

def data_mask : BitVec 32 := 0xFF

/-- The byte that round `i` of `WriteModule` sends. -/
def udp_wd (write_data : BitVec 32) (i : Nat) : UInt8 :=
  UInt8.ofNat ((write_data >>> (8 * i)) &&& data_mask).toNat

/-- The rounds of `WriteModule` from round `i`. -/
def writeCycles (register_address write_data : BitVec 32) :
    Nat → Nat → Int → FPGAModule → Client (Int × FPGAModule)
  | 0, _, status, m => pure (status, m)
  | rounds + 1, i, _, m => do
      let udpMan : UDPRBCP := { sendHeader_ := m.sendHeader_ }
      let r ← (udpMan.setWD (register_address + BitVec.ofNat 32 i) 1 [udp_wd write_data i]).doRBCP
      let m := { m with sendHeader_ := r.2.sendHeader_ }
      if r.1 < 0 then pure (r.1, m)
      else writeCycles register_address write_data rounds (i + 1) r.1 m

def writeModule (m : FPGAModule) (register_address write_data : BitVec 32) (nCycle : Int) :
    Client (Int × FPGAModule) :=
  if nCycle > 4 then pure (-1, m)
  else writeCycles register_address write_data nCycle.toNat 0 0 m

def readModule_nByte (m : FPGAModule) (register_address : BitVec 32) (length : Nat) :
    Client (Int × FPGAModule) := do
  let udpMan : UDPRBCP := { sendHeader_ := m.sendHeader_ }
  let r ← (udpMan.setRD register_address length).doRBCP
  pure (r.1, { m with
    sendHeader_ := r.2.sendHeader_
    rd_data_ := if r.1 > -1 then r.2.rd_buffer_ else [] })

/-- The rounds of `ReadModule` from round `i`. -/
def readCycles (register_address : BitVec 32) :
    Nat → Nat → BitVec 32 → FPGAModule → Client (BitVec 32 × FPGAModule)
  | 0, _, data, m => pure (data, { m with rd_word_ := data })
  | rounds + 1, i, data, m => do
      let r ← m.readModule_nByte (register_address + BitVec.ofNat 32 i) 1
      if r.1 > -1 then
        match r.2.rd_data_ with
        | [] => .fault .undefined
        | tmp :: _ =>
            readCycles register_address rounds (i + 1)
              (data + ((BitVec.ofNat 32 tmp.toNat &&& data_mask) <<< (8 * i))) r.2
      else pure (0xeeeeeeee, r.2)

def readModule (m : FPGAModule) (register_address : BitVec 32) (nCycle : Int) :
    Client (BitVec 32 × FPGAModule) :=
  if nCycle > 4 then pure (0xeeeeeeee, m)
  else readCycles register_address nCycle.toNat 0 0 m

end FPGAModule

end Userworks
