import Userworks.LogicFilter.TriggerMeaning

/-!
Which coincidences of a frame reach a trigger.

A coincidence is kept when a returned time lies at or before it and the formula
holds all the way from that time on. The scan compares neighbouring cells only,
so everything depends on the first cell: a frame keeps all its coincidences
exactly when none is active at time 0.
-/
namespace Userworks
namespace Trigger

variable {Map : Type}

/-- The value of the formula on a cell of the region. -/
def value (copy : TriggerCopy Map) (t : Trigger Map) (time : Nat) : Bool :=
  copy.lookUp t.fTMap (t.fTimeRegion.getD time 0)

/-- Every time at which the formula holds is reached from a returned time without
a gap. -/
def CoincidencesKept (copy : TriggerCopy Map) (t : Trigger Map) : Prop :=
  ∀ time < t.fTimeRegionSize.toNat, t.value copy time = true →
    ∃ s ∈ t.fHits.map BitVec.toNat, s ≤ time ∧
      ∀ u, s ≤ u → u ≤ time → t.value copy u = true

/-- All coincidences are kept exactly when the signals marked at time 0 do not
satisfy the formula. -/
theorem Ready.coincidencesKept_iff (copy : TriggerCopy Map) {t : Trigger Map}
    {es : List Entry} (h : t.Ready es) (hbf : List HBFIndex) :
    (t.exec copy hbf).CoincidencesKept copy ↔
      copy.lookUp t.fTMap
        (markPattern copy.tdcHit t.fTimeRegionSize t.fMarkLen es hbf 0) = false := by
  obtain ⟨-, hconfig⟩ := h.exec copy hbf
  have hpos := h.pos
  have hvalue : ∀ time < t.fTimeRegionSize.toNat, (t.exec copy hbf).value copy time =
      copy.lookUp t.fTMap
        (markPattern copy.tdcHit t.fTimeRegionSize t.fMarkLen es hbf time) := by
    intro time htime
    rw [value, hconfig.table, ← h.region hbf htime]
    rfl
  rw [← hvalue 0 hpos, ← @edges_reach_all_iff _ (t.fTimeRegionSize.toNat - 1), CoincidencesKept,
    h.exec_hits_toNat, hconfig.size]
  have hedges := risingEdges_congr (n := t.fTimeRegionSize.toNat - 1)
    fun time htime => hvalue time (by omega)
  rw [← hedges]
  constructor
  · intro hkept time htime
    exact hkept time (by omega)
  · intro hkept time htime
    exact hkept time (by omega)

/-- In every run after registration the coincidences are kept exactly when the
signals with a hit window over time 0 do not satisfy the formula. -/
theorem exec_coincidencesKept_iff (t : Trigger TriggerMap) {es : List Entry}
    (hlen : es.length ≤ 32) {size : BitVec 32} (hpos : 0 < size.toNat)
    (contents : List (BitVec 32)) :
    ∃ t', (t.setTimeRegion size contents).register es = .ok t' ∧
      ∀ (earlier : List (List HBFIndex)) (hbf : List HBFIndex),
        ((earlier.foldl (exec LogicFilter.triggerCopy) t').exec
          LogicFilter.triggerCopy hbf).CoincidencesKept LogicFilter.triggerCopy ↔
        t.fTMap.lookUp (markPattern LogicFilter.tdcHit size t.fMarkLen es hbf 0) = false := by
  obtain ⟨t', hreg, hready, hconfig⟩ := register_ready t hlen hpos contents
  refine ⟨t', hreg, ?_⟩
  intro earlier hbf
  obtain ⟨hready', hconfig'⟩ := hready.foldl_exec LogicFilter.triggerCopy earlier
  have hall := hconfig.trans hconfig'
  have hkept := hready'.coincidencesKept_iff LogicFilter.triggerCopy hbf
  rw [hall.size, hall.markLen, hall.table] at hkept
  exact hkept

/-- The table of the formula `0`. -/
def tableOfSignalZero : TriggerMap where
  fLut := [false, true]
  fNsignal := 1
  fSignalMask := 1
  fMapSize := 2

/-- The shipped region and mark length with one signal. -/
theorem exec_coincidencesKept_iff_one_signal :
    ∃ t', (setTimeRegion { fMarkLen := 10, fTMap := tableOfSignalZero }
          (BitVec.ofNat 32 131072) []).register [⟨0x20, 0, 0⟩] = .ok t' ∧
      ∀ (earlier : List (List HBFIndex)) (hbf : List HBFIndex),
        ((earlier.foldl (exec LogicFilter.triggerCopy) t').exec
          LogicFilter.triggerCopy hbf).CoincidencesKept LogicFilter.triggerCopy ↔
        tableOfSignalZero.lookUp
          (markPattern LogicFilter.tdcHit (BitVec.ofNat 32 131072) 10 [⟨0x20, 0, 0⟩] hbf 0) =
            false :=
  exec_coincidencesKept_iff { fMarkLen := 10, fTMap := tableOfSignalZero } (by decide)
    (by decide) []

/-- A segment with one leading edge of channel 0 at time 0. -/
def edgeAtZero : HBFIndex where
  msgIndex := 0
  timeFrameId := 0
  femType := SubTimeFrame.TDC64H
  femId := 0x20
  data := [0, 0, 0, 0, 0, 0, 0, 0x2c]

/-- A hit at time 0 of the only signal of the formula gives no trigger that
reaches it, though the formula is false without hits. -/
theorem coincidence_at_zero_lost :
    tableOfSignalZero.lookUp 0 = false ∧
      ∃ t', (setTimeRegion { fMarkLen := 10, fTMap := tableOfSignalZero }
            (BitVec.ofNat 32 131072) []).register [⟨0x20, 0, 0⟩] = .ok t' ∧
        ¬ (t'.exec LogicFilter.triggerCopy [edgeAtZero]).CoincidencesKept
          LogicFilter.triggerCopy := by
  refine ⟨by decide, ?_⟩
  obtain ⟨t', hreg, hready, hconfig⟩ := register_ready
    ({ fMarkLen := 10, fTMap := tableOfSignalZero } : Trigger TriggerMap)
    (show [(⟨0x20, 0, 0⟩ : Entry)].length ≤ 32 by decide)
    (show 0 < (BitVec.ofNat 32 131072).toNat by decide) []
  refine ⟨t', hreg, ?_⟩
  rw [hready.coincidencesKept_iff, hconfig.size, hconfig.markLen, hconfig.table]
  have hpattern : markPattern LogicFilter.tdcHit (BitVec.ofNat 32 131072) 10
      [⟨0x20, 0, 0⟩] [edgeAtZero] 0 = 1#32 := by
    apply BitVec.eq_of_getLsbD_eq
    intro i hi
    rw [Bool.eq_iff_iff, markPattern, getLsbD_patternOf hi, BitVec.getLsbD_one]
    constructor
    · rintro ⟨e, he, -⟩
      have hi' := (List.getElem?_eq_some_iff.mp he).1
      simp only [List.length_cons, List.length_nil] at hi'
      simp only [Bool.and_eq_true, decide_eq_true_eq]
      omega
    · intro hzero
      simp only [Bool.and_eq_true, decide_eq_true_eq] at hzero
      obtain ⟨-, rfl⟩ := hzero
      exact ⟨⟨0x20, 0, 0⟩, rfl, edgeAtZero, by simp, rfl, 0x2c00000000000000#64, by decide, 0,
        by decide, by decide, 0, by decide, by decide, by decide, by decide⟩
  have hvalue : LogicFilter.triggerCopy.lookUp tableOfSignalZero 1#32 = true := by decide
  have hlookUp : LogicFilter.triggerCopy.lookUp tableOfSignalZero
      (markPattern LogicFilter.triggerCopy.tdcHit (BitVec.ofNat 32 131072) 10
        [⟨0x20, 0, 0⟩] [edgeAtZero] 0) = true := (congrArg _ hpattern).trans hvalue
  exact fun hfalse => Bool.noConfusion (hlookUp.symm.trans hfalse)

end Trigger
end Userworks
