import Userworks.Lib.BitFields
import Userworks.Lib.LittleEndian

/-!
The words of the AmQ TDC: the members of the union `v1::Bits`, as the widths of
their bit-fields, and the head types.

The low-resolution and the high-resolution words differ in the fields of a hit.
-/
namespace Userworks
namespace AmQStrTdc

def Data : BitVec 6 := 0x0b
def Heartbeat : BitVec 6 := 0x1c
def Heartbeat2nd : BitVec 6 := 0x1e
def SpillEnd : BitVec 6 := 0x14

/-- The field `Bits::head` of a word. -/
def head (w : Word) : BitVec 6 := w.extractLsb' 58 6

namespace Bits

def commonFields : List Nat := [58, 6]
def lrtdcFields : List Nat := [15, 19, 16, 8, 6]
def hrtdcFields : List Nat := [29, 22, 7, 6]
def heartbeat1stFields : List Nat := [24, 16, 16, 2, 6]
def heartbeat2ndFields : List Nat := [20, 20, 16, 2, 6]

def tdc (w : Word) : BitVec 19 := bitField lrtdcFields 1 w
def tot (w : Word) : BitVec 16 := bitField lrtdcFields 2 w
def ch (w : Word) : BitVec 8 := bitField lrtdcFields 3 w

def hrtdc (w : Word) : BitVec 29 := bitField hrtdcFields 0 w
def hrtot (w : Word) : BitVec 22 := bitField hrtdcFields 1 w
def hrch (w : Word) : BitVec 7 := bitField hrtdcFields 2 w

def hbframe (w : Word) : BitVec 24 := bitField heartbeat1stFields 0 w
def toffset (w : Word) : BitVec 16 := bitField heartbeat1stFields 1 w
def hbflag (w : Word) : BitVec 16 := bitField heartbeat1stFields 2 w

def transSize (w : Word) : BitVec 20 := bitField heartbeat2ndFields 0 w
def geneSize (w : Word) : BitVec 20 := bitField heartbeat2ndFields 1 w
def userReg (w : Word) : BitVec 16 := bitField heartbeat2ndFields 2 w

example (w : Word) : head w = bitField commonFields 1 w := rfl

/-- Every member of the union fills the word. -/
example :
    ∀ layout ∈ [commonFields, lrtdcFields, hrtdcFields, heartbeat1stFields, heartbeat2ndFields],
      layout.sum = 64 := by decide

end Bits
end AmQStrTdc
end Userworks
