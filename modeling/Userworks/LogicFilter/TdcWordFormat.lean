import Userworks.Exam6.AmQStrTdcData
import Userworks.LogicFilter.UnpackTdc

/-!
The two descriptions of a TDC word, masks and shifts in `UnpackTdc.h` and
bit-fields in `AmQStrTdcData.h`, agree on leading edges and on both delimiters.
-/
namespace Userworks

open AmQStrTdc

theorem wordType_eq_iff (w : Word) {type : Int} (headType : BitVec 6)
    (htype : type = headType.toNat) : wordType w = type ↔ head w = headType := by
  rw [wordType_eq_head, htype, Int.natCast_inj, ← BitVec.toNat_inj]
  rfl

/-- A mask with the ones of a field, shifted to its lowest bit, reads the field. -/
theorem maskShift_eq_bitField (layout : List Nat) (i : Nat) (w mask : Word)
    (hmask : ∀ j < 64, (mask >>> bitOffset layout i).getLsbD j = decide (j < layout.getD i 0)) :
    maskShift w mask (bitOffset layout i) = (bitField layout i w).toNat :=
  maskShift_eq_extract w mask _ _ hmask

/-- A mask that leaves out the `k` lowest bits of a field divides it. -/
theorem maskShift_eq_bitField_div (layout : List Nat) (i k : Nat) (w mask : Word)
    (hmask : ∀ j < 64,
      (mask >>> (bitOffset layout i + k)).getLsbD j = decide (j < layout.getD i 0 - k)) :
    maskShift w mask (bitOffset layout i + k) =
      (bitField layout i w).toNat / ((2 ^ k : Nat) : Int) := by
  rw [maskShift_eq_extract w mask _ _ hmask, ← toNat_bitField_div, Int.natCast_ediv]

/-- What one decoder makes of a hit is what the bit-fields say. -/
theorem TDC64L_V3.unpack_eq_lrtdc (w : Word) (tdc : Tdc64V3) (h : isHitType (wordType w)) :
    (TDC64L_V3.unpack w tdc).ch = (Bits.ch w).toNat ∧
      (TDC64L_V3.unpack w tdc).tot = (Bits.tot w).toNat ∧
      (TDC64L_V3.unpack w tdc).tdc = (Bits.tdc w).toNat ∧
      (TDC64L_V3.unpack w tdc).tdc4n = (Bits.tdc w).toNat / 4 := by
  simp only [TDC64L_V3.unpack, Tdc64V3.unpack, h, if_true]
  refine ⟨?_, ?_, ?_, ?_⟩
  · exact maskShift_eq_bitField Bits.lrtdcFields 3 w _ (by decide)
  · exact maskShift_eq_bitField Bits.lrtdcFields 2 w _ (by decide)
  · exact maskShift_eq_bitField Bits.lrtdcFields 1 w _ (by decide)
  · exact maskShift_eq_bitField_div Bits.lrtdcFields 1 2 w _ (by decide)

theorem TDC64H_V3.unpack_eq_hrtdc (w : Word) (tdc : Tdc64V3) (h : isHitType (wordType w)) :
    (TDC64H_V3.unpack w tdc).ch = (Bits.hrch w).toNat ∧
      (TDC64H_V3.unpack w tdc).tot = (Bits.hrtot w).toNat ∧
      (TDC64H_V3.unpack w tdc).tdc = (Bits.hrtdc w).toNat ∧
      (TDC64H_V3.unpack w tdc).tdc4n = (Bits.hrtdc w).toNat / 4096 := by
  simp only [TDC64H_V3.unpack, Tdc64V3.unpack, h, if_true]
  refine ⟨?_, ?_, ?_, ?_⟩
  · exact maskShift_eq_bitField Bits.hrtdcFields 2 w _ (by decide)
  · exact maskShift_eq_bitField Bits.hrtdcFields 1 w _ (by decide)
  · exact maskShift_eq_bitField Bits.hrtdcFields 0 w _ (by decide)
  · exact maskShift_eq_bitField_div Bits.hrtdcFields 0 12 w _ (by decide)

/-- The delimiters do not depend on the masks of a hit. -/
theorem Tdc64V3.unpack_eq_heartbeat1st (masks : HitMasks) (w : Word) (tdc : Tdc64V3)
    (h : wordType w = T_HB1) :
    (Tdc64V3.unpack masks w tdc).flag = (Bits.hbflag w).toNat ∧
      (Tdc64V3.unpack masks w tdc).toffset = (Bits.toffset w).toNat ∧
      (Tdc64V3.unpack masks w tdc).hartbeat = (Bits.hbframe w).toNat := by
  have hhit : isHitType T_HB1 = false := by decide
  simp only [Tdc64V3.unpack, h, hhit, Bool.false_eq_true, if_false, if_true]
  refine ⟨?_, ?_, ?_⟩
  · exact maskShift_eq_bitField Bits.heartbeat1stFields 2 w _ (by decide)
  · exact maskShift_eq_bitField Bits.heartbeat1stFields 1 w _ (by decide)
  · exact maskShift_eq_bitField Bits.heartbeat1stFields 0 w _ (by decide)

theorem Tdc64V3.unpack_eq_heartbeat2nd (masks : HitMasks) (w : Word) (tdc : Tdc64V3)
    (h : wordType w = T_HB2) :
    (Tdc64V3.unpack masks w tdc).flag = (Bits.userReg w).toNat ∧
      (Tdc64V3.unpack masks w tdc).genesize = (Bits.geneSize w).toNat ∧
      (Tdc64V3.unpack masks w tdc).transize = (Bits.transSize w).toNat := by
  have hhit : isHitType T_HB2 = false := by decide
  have hne : T_HB2 ≠ T_HB1 := by decide
  simp only [Tdc64V3.unpack, h, hhit, hne, Bool.false_eq_true, if_false, if_true]
  refine ⟨?_, ?_, ?_⟩
  · exact maskShift_eq_bitField Bits.heartbeat2ndFields 2 w _ (by decide)
  · exact maskShift_eq_bitField Bits.heartbeat2ndFields 1 w _ (by decide)
  · exact maskShift_eq_bitField Bits.heartbeat2ndFields 0 w _ (by decide)

/-- Decoders and bit-fields describe one format. -/
theorem unpack_eq_bits (w : Word) (tdc : Tdc64V3) :
    ((TDC64L_V3.unpack w tdc).type = (head w).toNat ∧
      (TDC64H_V3.unpack w tdc).type = (head w).toNat) ∧
    (head w = Data →
      ((TDC64L_V3.unpack w tdc).ch = (Bits.ch w).toNat ∧
        (TDC64L_V3.unpack w tdc).tot = (Bits.tot w).toNat ∧
        (TDC64L_V3.unpack w tdc).tdc = (Bits.tdc w).toNat ∧
        (TDC64L_V3.unpack w tdc).tdc4n = (TDC64L_V3.unpack w tdc).tdc / 4) ∧
      (TDC64H_V3.unpack w tdc).ch = (Bits.hrch w).toNat ∧
        (TDC64H_V3.unpack w tdc).tot = (Bits.hrtot w).toNat ∧
        (TDC64H_V3.unpack w tdc).tdc = (Bits.hrtdc w).toNat ∧
        (TDC64H_V3.unpack w tdc).tdc4n = (TDC64H_V3.unpack w tdc).tdc / 4096) ∧
    (head w = Heartbeat → ∀ unpack ∈ [TDC64L_V3.unpack, TDC64H_V3.unpack],
      (unpack w tdc).flag = (Bits.hbflag w).toNat ∧
        (unpack w tdc).toffset = (Bits.toffset w).toNat ∧
        (unpack w tdc).hartbeat = (Bits.hbframe w).toNat) ∧
    (head w = Heartbeat2nd → ∀ unpack ∈ [TDC64L_V3.unpack, TDC64H_V3.unpack],
      (unpack w tdc).flag = (Bits.userReg w).toNat ∧
        (unpack w tdc).genesize = (Bits.geneSize w).toNat ∧
        (unpack w tdc).transize = (Bits.transSize w).toNat) := by
  refine ⟨⟨?_, ?_⟩, fun hhead => ?_, fun hhead unpack hunpack => ?_, fun hhead unpack hunpack => ?_⟩
  · rw [TDC64L_V3.unpack, Tdc64V3.unpack_type, wordType_eq_head, head]
  · rw [TDC64H_V3.unpack, Tdc64V3.unpack_type, wordType_eq_head, head]
  · have htype : wordType w = T_TDC := (wordType_eq_iff w Data (by decide)).mpr hhead
    have hhit : isHitType (wordType w) = true := by rw [htype]; decide
    have hl := TDC64L_V3.unpack_eq_lrtdc w tdc hhit
    have hh := TDC64H_V3.unpack_eq_hrtdc w tdc hhit
    refine ⟨⟨hl.1, hl.2.1, hl.2.2.1, ?_⟩, hh.1, hh.2.1, hh.2.2.1, ?_⟩
    · rw [hl.2.2.2, hl.2.2.1]
    · rw [hh.2.2.2, hh.2.2.1]
  · have htype : wordType w = T_HB1 := (wordType_eq_iff w Heartbeat (by decide)).mpr hhead
    cases List.mem_pair.mp hunpack with
    | inl h => exact h ▸ Tdc64V3.unpack_eq_heartbeat1st _ w tdc htype
    | inr h => exact h ▸ Tdc64V3.unpack_eq_heartbeat1st _ w tdc htype
  · have htype : wordType w = T_HB2 := (wordType_eq_iff w Heartbeat2nd (by decide)).mpr hhead
    cases List.mem_pair.mp hunpack with
    | inl h => exact h ▸ Tdc64V3.unpack_eq_heartbeat2nd _ w tdc htype
    | inr h => exact h ▸ Tdc64V3.unpack_eq_heartbeat2nd _ w tdc htype

theorem unpack_eq_bits_words :
    (head 0x2c04000000018000#64 = Data ∧
      (TDC64L_V3.unpack 0x2c04000000018000#64 {}).ch = (Bits.ch 0x2c04000000018000#64).toNat) ∧
    (head 0x7000120000000034#64 = Heartbeat ∧
      (TDC64H_V3.unpack 0x7000120000000034#64 {}).flag =
        (Bits.hbflag 0x7000120000000034#64).toNat) ∧
    (head 0x7800120000500034#64 = Heartbeat2nd ∧
      (TDC64L_V3.unpack 0x7800120000500034#64 {}).genesize =
        (Bits.geneSize 0x7800120000500034#64).toNat) :=
  ⟨⟨by decide, ((unpack_eq_bits _ {}).2.1 (by decide)).1.1⟩,
    ⟨by decide, ((unpack_eq_bits _ {}).2.2.1 (by decide) _ (by simp)).1⟩,
    ⟨by decide, ((unpack_eq_bits _ {}).2.2.2 (by decide) _ (by simp)).2.1⟩⟩

end Userworks
