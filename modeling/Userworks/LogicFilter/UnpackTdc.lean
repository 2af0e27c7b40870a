import Userworks.Lib.LittleEndian

/-!
Decoders of the 64-bit TDC words. Each `Unpack` fills a caller-supplied
structure from mask-and-shift fields and returns the word type, which is also
its field `type`. An `int` field that does not apply is set to -1, and one that
a branch does not assign keeps what the structure held.

The two V3 decoders and the two branches of the older ones for heartbeat and
spill words are written once with the masks as parameters.
-/
namespace Userworks

/-- `(data & mask) >> shift`, stored in an `int` that can hold it. -/
def maskShift (data mask : Word) (shift : Nat) : Int := ((data &&& mask) >>> shift).toNat

def T_TDC : Int := 0x0b
def T_TDC_L : Int := 0x0b
def T_TDC_T : Int := 0x0d
def T_THR1_START : Int := 0x19
def T_THR1_END : Int := 0x11
def T_THR2_START : Int := 0x1a
def T_THR2_END : Int := 0x12
def T_HB : Int := 0x1c
def T_HB1 : Int := 0x1c
def T_HB2 : Int := 0x1e
def T_SPL_START : Int := 0x18
def T_SPL_END : Int := 0x14

def wordType (data : Word) : Int := maskShift data 0xfc00000000000000#64 58

/-- The masks and shifts of a hit word. -/
structure HitMasks where
  chMask : Word
  chShift : Nat
  totMask : Word
  totShift : Nat
  tdcMask : Word
  tdcShift : Nat
  tdc4nMask : Word
  tdc4nShift : Nat

/-- The structure of the decoders before V3. -/
structure Tdc64 where
  type : Int := 0
  ch : Int := 0
  tot : Int := 0
  tdc : Int := 0
  tdc4n : Int := 0
  flag : Int := 0
  spill : Int := 0
  hartbeat : Int := 0
  deriving DecidableEq

/-- The fields of a heartbeat or spill word. -/
def Tdc64.control (data : Word) : Tdc64 where
  type := wordType data
  ch := -1
  tot := -1
  tdc := -1
  tdc4n := -1
  flag := maskShift data 0x03ff000000000000#64 48
  spill := maskShift data 0x0000ff0000000000#64 40
  hartbeat := maskShift data 0x000000ffff000000#64 24

def Tdc64.other (data : Word) : Tdc64 where
  type := wordType data
  ch := -1
  tot := -1
  tdc := -1
  tdc4n := -1
  flag := -1
  spill := -1
  hartbeat := -1

def Tdc64.hit (masks : HitMasks) (data : Word) (flag : Int) : Tdc64 where
  type := wordType data
  ch := maskShift data masks.chMask masks.chShift
  tot := maskShift data masks.totMask masks.totShift
  tdc := maskShift data masks.tdcMask masks.tdcShift
  tdc4n := maskShift data masks.tdc4nMask masks.tdc4nShift
  flag := flag
  spill := -1
  hartbeat := -1

/-- The types the newer decoders read as a hit: both edges and the throttling
marks. -/
def isHitType (type : Int) : Bool :=
  type = T_TDC_L || type = T_TDC_T || type = T_THR1_START || type = T_THR1_END ||
    type = T_THR2_START || type = T_THR2_END

namespace TDC64H

def masks : HitMasks where
  chMask := 0x03f8000000000000#64
  chShift := 51
  totMask := 0x0007ffffe0000000#64
  totShift := 29
  tdcMask := 0x000000001fffffff#64
  tdcShift := 0
  tdc4nMask := 0x000000001fffffff#64
  tdc4nShift := 12

/-- The hit branch does not assign `flag`. -/
def unpack (data : Word) (tdc : Tdc64) : Tdc64 :=
  if wordType data = T_TDC then .hit masks data tdc.flag
  else if wordType data = T_HB then .control data
  else if wordType data = T_SPL_START ∨ wordType data = T_SPL_END then .control data
  else .other data

end TDC64H

namespace TDC64L

namespace V1

def masks : HitMasks where
  chMask := 0x03f8000000000000#64
  chShift := 51
  totMask := 0x0007f80000000000#64
  totShift := 43
  tdcMask := 0x000007ffff000000#64
  tdcShift := 24
  tdc4nMask := 0x000007ffff000000#64
  tdc4nShift := 26

def unpack (data : Word) (_tdc : Tdc64) : Tdc64 :=
  if wordType data = T_TDC then .hit masks data (-1)
  else if wordType data = T_HB then .control data
  else if wordType data = T_SPL_START ∨ wordType data = T_SPL_END then .control data
  else .other data

end V1

def masks : HitMasks where
  chMask := 0x03f8000000000000#64
  chShift := 51
  totMask := 0x0007fff800000000#64
  totShift := 35
  tdcMask := 0x00000007ffff0000#64
  tdcShift := 16
  tdc4nMask := 0x00000007fffc0000#64
  tdc4nShift := 18

/-- The decoder of the inline namespace `v2`. -/
def unpack (data : Word) (_tdc : Tdc64) : Tdc64 :=
  if isHitType (wordType data) then .hit masks data (-1)
  else if wordType data = T_HB then .control data
  else if wordType data = T_SPL_START ∨ wordType data = T_SPL_END then .control data
  else .other data

end TDC64L

/-- The structure of the V3 decoders. -/
structure Tdc64V3 where
  type : Int := 0
  ch : Int := 0
  tot : Int := 0
  tdc : Int := 0
  tdc4n : Int := 0
  flag : Int := 0
  toffset : Int := 0
  genesize : Int := 0
  transize : Int := 0
  hartbeat : Int := 0
  deriving DecidableEq

def Tdc64V3.unpack (masks : HitMasks) (data : Word) (_tdc : Tdc64V3) : Tdc64V3 :=
  let none : Tdc64V3 := {
    type := wordType data
    ch := -1, tot := -1, tdc := -1, tdc4n := -1, flag := -1
    toffset := -1, genesize := -1, transize := -1, hartbeat := -1 }
  if isHitType (wordType data) then
    { none with
      ch := maskShift data masks.chMask masks.chShift
      tot := maskShift data masks.totMask masks.totShift
      tdc := maskShift data masks.tdcMask masks.tdcShift
      tdc4n := maskShift data masks.tdc4nMask masks.tdc4nShift }
  else if wordType data = T_HB1 then
    { none with
      flag := maskShift data 0x00ffff0000000000#64 40
      toffset := maskShift data 0x000000ffff000000#64 24
      hartbeat := maskShift data 0x0000000000ffffff#64 0 }
  else if wordType data = T_HB2 then
    { none with
      flag := maskShift data 0x00ffff0000000000#64 40
      genesize := maskShift data 0x000000fffff00000#64 20
      transize := maskShift data 0x00000000000fffff#64 0 }
  else none

namespace TDC64H_V3

def masks : HitMasks := TDC64H.masks

def unpack : Word → Tdc64V3 → Tdc64V3 := Tdc64V3.unpack masks

end TDC64H_V3

namespace TDC64L_V3

def masks : HitMasks where
  chMask := 0x03fc000000000000#64
  chShift := 50
  totMask := 0x0003fffc00000000#64
  totShift := 34
  tdcMask := 0x00000003ffff8000#64
  tdcShift := 15
  tdc4nMask := 0x00000003fffe0000#64
  tdc4nShift := 17

def unpack : Word → Tdc64V3 → Tdc64V3 := Tdc64V3.unpack masks

end TDC64L_V3

/-- A mask of `len` ones from bit `start` on selects the bit field there. -/
theorem maskShift_eq_extract (data mask : Word) (start len : Nat)
    (hmask : ∀ i < 64, (mask >>> start).getLsbD i = decide (i < len)) :
    maskShift data mask start = (data.extractLsb' start len).toNat := by
  rw [maskShift, Int.natCast_inj]
  apply Nat.eq_of_testBit_eq
  intro i
  rw [BitVec.testBit_toNat, BitVec.testBit_toNat, BitVec.getLsbD_ushiftRight, BitVec.getLsbD_and,
    BitVec.getLsbD_extractLsb']
  by_cases hi : start + i < 64
  · have hbit := hmask i (by omega)
    rw [BitVec.getLsbD_ushiftRight] at hbit
    rw [hbit, Bool.and_comm]
  · rw [BitVec.getLsbD_of_ge data _ (by omega)]
    simp

@[simp] theorem wordType_eq_head (data : Word) :
    wordType data = (data.extractLsb' 58 6).toNat :=
  maskShift_eq_extract data _ 58 6 (by decide)

@[simp] theorem Tdc64V3.unpack_type (masks : HitMasks) (w : Word) (tdc : Tdc64V3) :
    (Tdc64V3.unpack masks w tdc).type = wordType w := by
  unfold Tdc64V3.unpack
  repeat' split
  all_goals rfl

@[simp] theorem TDC64H.unpack_type (w : Word) (tdc : Tdc64) :
    (TDC64H.unpack w tdc).type = wordType w := by
  unfold TDC64H.unpack
  repeat' split
  all_goals rfl

@[simp] theorem TDC64L.unpack_type (w : Word) (tdc : Tdc64) :
    (TDC64L.unpack w tdc).type = wordType w := by
  unfold TDC64L.unpack
  repeat' split
  all_goals rfl

end Userworks
