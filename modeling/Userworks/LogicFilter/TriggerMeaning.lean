import Userworks.LogicFilter.TriggerMarking
import Mathlib.Algebra.Order.Group.Int
import Mathlib.Algebra.Order.Group.Abs
import Mathlib.Data.List.Forall2

/-!
The meaning of a trigger run in terms of the data words.

A word is a leading edge by its head field alone, with the channel and the time
where the format of its module type has them. Inside the range of time regions
in use the unsigned arithmetic of the marking loop is the plain distance of a
time from a hit. The run then returns the rising edges of the formula over the
signal patterns.
-/
namespace Userworks

/-- The channel and the 4 ns time of a leading-edge word, by the bit fields of
the four formats the engine knows. -/
def leadingEdge (femType : BitVec 32) (w : Word) : Option (Int × Int) :=
  if w.extractLsb' 58 6 ≠ 0x0b#6 then none
  else if femType = SubTimeFrame.TDC64H ∨ femType = SubTimeFrame.TDC64H_V3 then
    some ((w.extractLsb' 51 7).toNat, (w.extractLsb' 12 17).toNat)
  else if femType = SubTimeFrame.TDC64L then
    some ((w.extractLsb' 51 7).toNat, (w.extractLsb' 18 17).toNat)
  else if femType = SubTimeFrame.TDC64L_V3 then
    some ((w.extractLsb' 50 8).toNat, (w.extractLsb' 17 17).toNat)
  else none

private theorem head_eq_iff (w : Word) :
    wordType w = T_TDC ↔ w.extractLsb' 58 6 = 0x0b#6 := by
  rw [wordType_eq_head, T_TDC, ← BitVec.toNat_inj]
  norm_cast

theorem Tdc64V3.unpack_hit {masks : HitMasks} {w : Word} {tdc : Tdc64V3}
    (h : wordType w = T_TDC) :
    (Tdc64V3.unpack masks w tdc).ch = maskShift w masks.chMask masks.chShift ∧
      (Tdc64V3.unpack masks w tdc).tdc4n = maskShift w masks.tdc4nMask masks.tdc4nShift := by
  have hhit : isHitType (wordType w) = true := by rw [h]; decide
  simp only [Tdc64V3.unpack, hhit, if_true, and_self]

theorem TDC64H.unpack_hit {w : Word} {tdc : Tdc64} (h : wordType w = T_TDC) :
    (TDC64H.unpack w tdc).ch = maskShift w TDC64H.masks.chMask 51 ∧
      (TDC64H.unpack w tdc).tdc4n = maskShift w TDC64H.masks.tdc4nMask 12 := by
  rw [TDC64H.unpack, if_pos h]
  exact ⟨rfl, rfl⟩

theorem TDC64L.unpack_hit {w : Word} {tdc : Tdc64} (h : wordType w = T_TDC) :
    (TDC64L.unpack w tdc).ch = maskShift w TDC64L.masks.chMask 51 ∧
      (TDC64L.unpack w tdc).tdc4n = maskShift w TDC64L.masks.tdc4nMask 18 := by
  have hhit : isHitType (wordType w) = true := by rw [h]; decide
  rw [TDC64L.unpack, if_pos hhit]
  exact ⟨rfl, rfl⟩

/-- The four decoder branches read the bit fields of their formats. -/
theorem LogicFilter.tdcHit_eq_leadingEdge (femType : BitVec 32) (w : Word) :
    LogicFilter.tdcHit femType w = leadingEdge femType w := by
  by_cases h : wordType w = T_TDC
  · have hhead := (head_eq_iff w).mp h
    have hH : maskShift w TDC64H.masks.chMask 51 = (w.extractLsb' 51 7).toNat :=
      maskShift_eq_extract w _ 51 7 (by decide)
    have hH4 : maskShift w TDC64H.masks.tdc4nMask 12 = (w.extractLsb' 12 17).toNat :=
      maskShift_eq_extract w _ 12 17 (by decide)
    have hL : maskShift w TDC64L.masks.chMask 51 = (w.extractLsb' 51 7).toNat :=
      maskShift_eq_extract w _ 51 7 (by decide)
    have hL4 : maskShift w TDC64L.masks.tdc4nMask 18 = (w.extractLsb' 18 17).toNat :=
      maskShift_eq_extract w _ 18 17 (by decide)
    have hV : maskShift w TDC64L_V3.masks.chMask 50 = (w.extractLsb' 50 8).toNat :=
      maskShift_eq_extract w _ 50 8 (by decide)
    have hV4 : maskShift w TDC64L_V3.masks.tdc4nMask 17 = (w.extractLsb' 17 17).toNat :=
      maskShift_eq_extract w _ 17 17 (by decide)
    simp only [LogicFilter.tdcHit, leadingEdge, TDC64H.unpack_type, TDC64L.unpack_type,
      TDC64H_V3.unpack, TDC64L_V3.unpack, Tdc64V3.unpack_type, h, if_true, hhead,
      (TDC64H.unpack_hit h).1, (TDC64H.unpack_hit h).2, (TDC64L.unpack_hit h).1,
      (TDC64L.unpack_hit h).2, (Tdc64V3.unpack_hit h).1, (Tdc64V3.unpack_hit h).2]
    have hmasksH : TDC64H_V3.masks.chMask = TDC64H.masks.chMask ∧ TDC64H_V3.masks.chShift = 51 ∧
        TDC64H_V3.masks.tdc4nMask = TDC64H.masks.tdc4nMask ∧ TDC64H_V3.masks.tdc4nShift = 12 :=
      ⟨rfl, rfl, rfl, rfl⟩
    have hmasksL : TDC64L_V3.masks.chShift = 50 ∧ TDC64L_V3.masks.tdc4nShift = 17 := ⟨rfl, rfl⟩
    rw [hmasksH.1, hmasksH.2.1, hmasksH.2.2.1, hmasksH.2.2.2, hmasksL.1, hmasksL.2,
      hH, hH4, hL, hL4, hV, hV4]
    by_cases h1 : femType = SubTimeFrame.TDC64H
    · simp [h1]
    · by_cases h2 : femType = SubTimeFrame.TDC64H_V3
      · simp [h2, SubTimeFrame.TDC64H, SubTimeFrame.TDC64L, SubTimeFrame.TDC64H_V3]
      · simp [h1, h2]
  · have hhead : w.extractLsb' 58 6 ≠ 0x0b#6 := fun hh => h ((head_eq_iff w).mpr hh)
    simp only [LogicFilter.tdcHit, leadingEdge, TDC64H.unpack_type, TDC64L.unpack_type,
      TDC64H_V3.unpack, TDC64L_V3.unpack, Tdc64V3.unpack_type, h, if_false, hhead, ne_eq,
      not_false_eq_true, if_true, ite_self]

/-- Signal `i` is active at a time: a leading edge of its channel lies within
half the mark length of it, and not beyond the last full window. -/
def SignalAt (N : Nat) (markLen : Int) (es : List Entry) (hbf : List HBFIndex)
    (time i : Nat) : Prop :=
  ∃ e, es[i]? = some e ∧ ∃ seg ∈ hbf, seg.femId = e.module ∧ ∃ w ∈ words seg.data,
    ∃ tdc4n, leadingEdge seg.femType w = some (e.ch, tdc4n) ∧
      (tdc4n + e.offset) % 2 ^ 32 < N - markLen / 2 ∧
      |(time : Int) - (tdc4n + e.offset) % 2 ^ 32| ≤ markLen / 2

noncomputable def signalPattern (N : Nat) (markLen : Int) (es : List Entry)
    (hbf : List HBFIndex) (time : Nat) : BitVec 32 :=
  patternOf (SignalAt N markLen es hbf time)

/-- The strictly increasing list of the times below `N` at which the formula
turns true. -/
structure TriggerTimes (formula : BitVec 32 → Bool) (N : Nat) (pattern : Nat → BitVec 32)
    (times : List Nat) : Prop where
  increasing : times.Pairwise (· < ·)
  mem_iff : ∀ t, t ∈ times ↔
    1 ≤ t ∧ t < N ∧ formula (pattern (t - 1)) = false ∧ formula (pattern t) = true

/-- The same segments in another order, each with its words in another order. -/
def SameUpToOrder (hbf hbf' : List HBFIndex) : Prop :=
  ∃ permuted, hbf.Perm permuted ∧
    List.Forall₂ (fun seg seg' => seg.femId = seg'.femId ∧ seg.femType = seg'.femType ∧
      (words seg.data).Perm (words seg'.data)) permuted hbf'

private theorem exists_mem_forall₂ {α : Type} {R : α → α → Prop} {P : α → Prop}
    (hP : ∀ x y, R x y → (P x ↔ P y)) {xs ys : List α} (h : List.Forall₂ R xs ys) :
    (∃ x ∈ xs, P x) ↔ ∃ y ∈ ys, P y := by
  induction h with
  | nil => simp
  | cons hxy _ ih => simp only [List.exists_mem_cons_iff, hP _ _ hxy, ih]

theorem SameUpToOrder.signalPattern {hbf hbf' : List HBFIndex} (h : SameUpToOrder hbf hbf')
    (N : Nat) (markLen : Int) (es : List Entry) (time : Nat) :
    Userworks.signalPattern N markLen es hbf time =
      Userworks.signalPattern N markLen es hbf' time := by
  obtain ⟨permuted, hperm, hwords⟩ := h
  apply patternOf_congr
  intro i
  refine exists_congr fun e => and_congr_right fun _ => ?_
  simp only [hperm.mem_iff]
  refine exists_mem_forall₂ ?_ hwords
  rintro seg seg' ⟨hid, htype, hdata⟩
  simp only [hid, htype, hdata.mem_iff]

/-- In the range of regions in use, the window of a hit is the distance from it. -/
theorem covered_iff {N : Nat} {markLen : Int} {hit : BitVec 32} {time : Nat}
    (hN : N ≤ 2 ^ 31) (hm : 0 ≤ markLen) (hmN : markLen / 2 < N) (htime : time < N) :
    Trigger.Covered (BitVec.ofNat 32 N) markLen hit time ↔
      (hit.toNat : Int) < N - markLen / 2 ∧ |(time : Int) - hit.toNat| ≤ markLen / 2 := by
  have hdiv : markLen.tdiv 2 = markLen / 2 := Int.tdiv_eq_ediv_of_nonneg hm
  have hhit := hit.isLt
  rw [Trigger.Covered, hdiv, abs_le]
  generalize hd : markLen / 2 = d at *
  have hd0 : 0 ≤ d := by omega
  have hguard : hit < BitVec.ofNat 32 N - BitVec.ofInt 32 d ↔ (hit.toNat : Int) < N - d := by
    rw [BitVec.lt_def, BitVec.toNat_sub, BitVec.toNat_ofNat, BitVec.toNat_ofInt]
    omega
  have hcell : ∀ k : Int, (hit + BitVec.ofInt 32 k).toNat =
      (hit.toNat + (k % 2 ^ 32).toNat) % 2 ^ 32 := by
    intro k
    rw [BitVec.toNat_add, BitVec.toNat_ofInt]
    rfl
  rw [hguard]
  refine and_congr_right fun hlt => ?_
  constructor
  · rintro ⟨k, hlow, hhigh, -, htm⟩
    rw [hcell] at htm
    omega
  · rintro ⟨hlow, hhigh⟩
    have htm : (hit + BitVec.ofInt 32 ((time : Int) - hit.toNat)).toNat = time := by
      rw [hcell]; omega
    refine ⟨time - hit.toNat, by omega, by omega, ?_, htm⟩
    rw [BitVec.lt_def, htm, BitVec.toNat_ofNat]
    omega

/-- In that range the bits of the cells are the active signals. -/
theorem markPattern_eq_signalPattern {N : Nat} {markLen : Int} (hN : N ≤ 2 ^ 31)
    (hm : 0 ≤ markLen) (hmN : markLen / 2 < N) (es : List Entry) (hbf : List HBFIndex)
    {time : Nat} (htime : time < N) :
    Trigger.markPattern LogicFilter.tdcHit (BitVec.ofNat 32 N) markLen es hbf time =
      signalPattern N markLen es hbf time := by
  apply patternOf_congr
  intro i
  have hhit : ∀ h : Int, ((BitVec.ofInt 32 h).toNat : Int) = h % 2 ^ 32 := by
    intro h
    rw [BitVec.toNat_ofInt]
    omega
  simp only [Trigger.Marked, SignalAt, LogicFilter.tdcHit_eq_leadingEdge,
    covered_iff hN hm hmN htime, hhit]

/-- Over a region of `N` cells the hits of a run are the edges of the formula over
the active signals. -/
theorem Trigger.Ready.exec_signalPattern {t : Trigger TriggerMap} {es : List Entry} {N : Nat}
    (h : t.Ready es) (hsize : t.fTimeRegionSize = BitVec.ofNat 32 N) (hN : N ≤ 2 ^ 31)
    (hm : 0 ≤ t.fMarkLen) (hmN : t.fMarkLen / 2 < N) (hbf : List HBFIndex) :
    (t.exec LogicFilter.triggerCopy hbf).fHits.map BitVec.toNat =
      risingEdges (fun time => t.fTMap.lookUp (signalPattern N t.fMarkLen es hbf time))
        (N - 1) := by
  have hsizeNat : t.fTimeRegionSize.toNat = N := by
    rw [hsize, BitVec.toNat_ofNat]
    omega
  rw [h.exec_hits_toNat, hsizeNat]
  apply risingEdges_congr
  intro time htime
  rw [hsize]
  exact congrArg _ (markPattern_eq_signalPattern hN hm hmN es hbf (by omega))

/-- The times returned by a run that comes after the runs on `earlier`. -/
def Trigger.hitsAfter {Map : Type} (copy : TriggerCopy Map) (t : Trigger Map)
    (earlier : List (List HBFIndex)) (hbf : List HBFIndex) : List Nat :=
  ((earlier.foldl (exec copy) t).exec copy hbf).fHits.map BitVec.toNat

/-- After registration every run, whatever ran before, returns the trigger times
of the active signals, in whatever order segments and words come. -/
theorem Trigger.exec_meaning (t : Trigger TriggerMap) {es : List Entry} (hlen : es.length ≤ 32)
    {N : Nat} (hN : N ≤ 2 ^ 31) (hm : 0 ≤ t.fMarkLen) (hmN : t.fMarkLen / 2 < N)
    (contents : List (BitVec 32)) :
    ∃ t', (t.setTimeRegion (BitVec.ofNat 32 N) contents).register es = .ok t' ∧
      ∀ earlier hbf,
        TriggerTimes t.fTMap.lookUp N (signalPattern N t.fMarkLen es hbf)
          (t'.hitsAfter LogicFilter.triggerCopy earlier hbf) ∧
        ∀ earlier' hbf', SameUpToOrder hbf hbf' →
          t'.hitsAfter LogicFilter.triggerCopy earlier' hbf' =
            t'.hitsAfter LogicFilter.triggerCopy earlier hbf := by
  obtain ⟨t', hreg, hready, hconfig⟩ := register_ready t hlen
    (show 0 < (BitVec.ofNat 32 N).toNat by rw [BitVec.toNat_ofNat]; omega) contents
  have hhits : ∀ earlier hbf, t'.hitsAfter LogicFilter.triggerCopy earlier hbf =
      risingEdges (fun time => t.fTMap.lookUp (signalPattern N t.fMarkLen es hbf time))
        (N - 1) := by
    intro earlier hbf
    obtain ⟨hready', hconfig'⟩ := hready.foldl_exec LogicFilter.triggerCopy earlier
    have hall := hconfig.trans hconfig'
    have hmarkLen : _ = t.fMarkLen := hall.markLen
    have hTMap : _ = t.fTMap := hall.table
    have hhits := hready'.exec_signalPattern hall.size hN (by rw [hmarkLen]; exact hm)
      (by rw [hmarkLen]; exact hmN) hbf
    rw [hmarkLen, hTMap] at hhits
    exact hhits
  refine ⟨t', hreg, ?_⟩
  intro earlier hbf
  rw [hhits]
  refine ⟨⟨risingEdges_pairwise _ _, ?_⟩, ?_⟩
  · intro time
    rw [mem_risingEdges]
    constructor
    · rintro ⟨hpos, hlast, hedge⟩
      exact ⟨hpos, by omega, hedge⟩
    · rintro ⟨hpos, hlast, hedge⟩
      exact ⟨hpos, by omega, hedge⟩
  · intro earlier' hbf' hsame
    rw [hhits]
    simp only [hsame.signalPattern]

/-- The shipped region of 131072 cells and mark length 10, two signals of one
module, and the table of the formula `0 1 &`. -/
theorem Trigger.exec_meaning_two_signals :
    ∃ t', (setTimeRegion
          { fMarkLen := 10
            fTMap := { fLut := [false, false, false, true], fNsignal := 2, fSignalMask := 3,
                       fMapSize := 4 } } (BitVec.ofNat 32 131072) []).register
          [⟨0x20, 5, -3⟩, ⟨0x20, 6, 0⟩] = .ok t' ∧
      ∀ earlier hbf,
        TriggerTimes (TriggerMap.lookUp { fLut := [false, false, false, true], fNsignal := 2,
                                          fSignalMask := 3, fMapSize := 4 }) 131072
          (signalPattern 131072 10 [⟨0x20, 5, -3⟩, ⟨0x20, 6, 0⟩] hbf)
          (t'.hitsAfter LogicFilter.triggerCopy earlier hbf) ∧
        ∀ earlier' hbf', SameUpToOrder hbf hbf' →
          t'.hitsAfter LogicFilter.triggerCopy earlier' hbf' =
            t'.hitsAfter LogicFilter.triggerCopy earlier hbf :=
  exec_meaning
    { fMarkLen := 10
      fTMap := { fLut := [false, false, false, true], fNsignal := 2, fSignalMask := 3,
                 fMapSize := 4 } }
    (by decide) (by decide) (by decide) (by decide) []

end Userworks
