import Userworks.LogicFilter.TriggerMeaning

/-!
The two copies of the trigger engine, compared on formulas in postfix form.

Both fill the same table. The copy under exam6 answers false for every pattern
with a bit above the signals in use, where the newer one cuts the pattern to
them, and it reads words of type TDC64L_V3 with the decoder of an older format.
While the words of that type mark the same signals under both decoders, the
engines agree exactly when no signal above the formula gets in the way.
-/
namespace Userworks

theorem lt_two_pow_iff_getLsbD (v : BitVec 32) (n : Nat) :
    v.toNat < 2 ^ n ↔ ∀ i, n ≤ i → i < 32 → v.getLsbD i = false := by
  constructor
  · intro hlt i hi _
    rw [← BitVec.testBit_toNat]
    exact Nat.testBit_lt_two_pow (hlt.trans_le (Nat.pow_le_pow_right (by decide) hi))
  · intro h
    apply Nat.lt_pow_two_of_testBit
    intro i hi
    rw [BitVec.testBit_toNat]
    by_cases hi32 : i < 32
    · exact h i hi hi32
    · exact BitVec.getLsbD_of_ge v i (by omega)

namespace Trigger

/-- No signal from number `n` on is marked at a time. -/
def Quiet (size : BitVec 32) (markLen : Int) (es : List Entry) (hbf : List HBFIndex) (n : Nat)
    (time : Nat) : Prop :=
  ∀ i, n ≤ i → ¬ Marked LogicFilter.tdcHit size markLen es hbf time i

/-- Every word of type TDC64L_V3 is read alike for the channels that are
registered for its module. -/
def DecodedAlike (es : List Entry) (hbf : List HBFIndex) : Prop :=
  ∀ e ∈ es, ∀ seg ∈ hbf, seg.femId = e.module → seg.femType = SubTimeFrame.TDC64L_V3 →
    ∀ w ∈ words seg.data, ∀ tdc4n,
      LogicFilter.tdcHit seg.femType w = some (e.ch, tdc4n) ↔
        Exam6.tdcHit seg.femType w = some (e.ch, tdc4n)

/-- Only words of that type can be read differently. -/
theorem tdcHit_eq_of_ne {type : BitVec 32} (h : type ≠ SubTimeFrame.TDC64L_V3) (w : Word) :
    Exam6.tdcHit type w = LogicFilter.tdcHit type w := by
  simp only [Exam6.tdcHit, LogicFilter.tdcHit, h, if_false]

/-- The two decoders mark the same signals at every time of the region. -/
def MarkedAlike (size : BitVec 32) (markLen : Int) (es : List Entry) (hbf : List HBFIndex) :
    Prop :=
  ∀ time, time < size.toNat → ∀ i, Marked Exam6.tdcHit size markLen es hbf time i ↔
    Marked LogicFilter.tdcHit size markLen es hbf time i

theorem DecodedAlike.markedAlike {es : List Entry} {hbf : List HBFIndex}
    (h : DecodedAlike es hbf) (size : BitVec 32) (markLen : Int) :
    MarkedAlike size markLen es hbf := by
  intro time _ i
  refine exists_congr fun e => and_congr_right fun he => exists_congr fun seg =>
    and_congr_right fun hseg => and_congr_right fun hmod => exists_congr fun w =>
    and_congr_right fun hw => exists_congr fun tdc4n => and_congr_left fun _ => ?_
  by_cases htype : seg.femType = SubTimeFrame.TDC64L_V3
  · exact (h e (List.mem_of_getElem? he) seg hseg hmod htype w hw tdc4n).symm
  · rw [tdcHit_eq_of_ne htype]

/-- A segment list without that type is marked alike. -/
theorem markedAlike_of_no_TDC64L_V3 {hbf : List HBFIndex}
    (h : ∀ seg ∈ hbf, seg.femType ≠ SubTimeFrame.TDC64L_V3) (es : List Entry)
    (size : BitVec 32) (markLen : Int) : MarkedAlike size markLen es hbf :=
  DecodedAlike.markedAlike (fun _ _ seg hseg _ htype => absurd htype (h seg hseg)) size markLen

theorem markPattern_lt_iff_quiet {es : List Entry} (hlen : es.length ≤ 32) (size : BitVec 32)
    (markLen : Int) (hbf : List HBFIndex) (n time : Nat) :
    (markPattern LogicFilter.tdcHit size markLen es hbf time).toNat < 2 ^ n ↔
      Quiet size markLen es hbf n time := by
  rw [lt_two_pow_iff_getLsbD]
  refine forall_congr' fun i => forall_congr' fun _ => ?_
  constructor
  · rintro h hmarked
    have hi : i < 32 := by
      obtain ⟨e, he, -⟩ := hmarked
      have hsome := (List.getElem?_eq_some_iff.mp he).1
      omega
    have hbit := (getLsbD_patternOf hi).mpr hmarked
    rw [← markPattern, h hi] at hbit
    cases hbit
  · intro h hi
    rw [markPattern, ← Bool.not_eq_true, getLsbD_patternOf hi]
    exact h

/-- The formula of a table holds at a time. -/
def Holds (tm : TriggerMap) (size : BitVec 32) (markLen : Int) (es : List Entry)
    (hbf : List HBFIndex) (time : Nat) : Prop :=
  tm.lookUp (markPattern LogicFilter.tdcHit size markLen es hbf time) = true

/-- No signal from number `n` on is present when the formula turns true, and none
goes away while it stays true. -/
def Undisturbed (tm : TriggerMap) (size : BitVec 32) (markLen : Int) (es : List Entry)
    (hbf : List HBFIndex) (n : Nat) : Prop :=
  ∀ time, 1 ≤ time → time < size.toNat → Holds tm size markLen es hbf time →
    (¬ Holds tm size markLen es hbf (time - 1) → Quiet size markLen es hbf n time) ∧
    (Holds tm size markLen es hbf (time - 1) → Quiet size markLen es hbf n time →
      Quiet size markLen es hbf n (time - 1))

/-- Two ready engines, one of each copy, with the same region, mark length and
signals, on the tables of one formula over `n` signals. -/
theorem Ready.hits_eq_iff {t : Trigger TriggerMap} {u : Trigger Exam6.TriggerMap}
    {es : List Entry} (ht : t.Ready es) (hu : u.Ready es)
    (hsize : u.fTimeRegionSize = t.fTimeRegionSize) (hmark : u.fMarkLen = t.fMarkLen) {n : Nat}
    {value : BitVec 32 → Bool}
    (htable : ∀ v, t.fTMap.lookUp v = value (BitVec.ofNat 32 (v.toNat % 2 ^ n)))
    (hutable : ∀ v, u.fTMap.lookUp v = (value v && decide (v.toNat < 2 ^ n)))
    {hbf : List HBFIndex} (halike : MarkedAlike t.fTimeRegionSize t.fMarkLen es hbf) :
    (t.exec LogicFilter.triggerCopy hbf).fHits = (u.exec Exam6.triggerCopy hbf).fHits ↔
      Undisturbed t.fTMap t.fTimeRegionSize t.fMarkLen es hbf n := by
  have hcut : ∀ v, u.fTMap.lookUp v = (t.fTMap.lookUp v && decide (v.toNat < 2 ^ n)) := by
    intro v
    rw [htable, hutable]
    by_cases hv : v.toNat < 2 ^ n
    · rw [Nat.mod_eq_of_lt hv, BitVec.ofNat_toNat, BitVec.setWidth_eq]
    · simp only [hv, decide_false, Bool.and_false]
  have hpos := ht.pos
  have hinj : ∀ x y : BitVec 32, x.toNat = y.toNat → x = y := fun _ _ => BitVec.eq_of_toNat_eq
  rw [← List.map_inj_right hinj, ht.exec_hits_toNat, hu.exec_hits_toNat, hsize, hmark]
  have hcells : ∀ time ≤ t.fTimeRegionSize.toNat - 1, Exam6.triggerCopy.lookUp u.fTMap
      (markPattern Exam6.triggerCopy.tdcHit t.fTimeRegionSize t.fMarkLen es hbf time) =
      (t.fTMap.lookUp (markPattern LogicFilter.tdcHit t.fTimeRegionSize t.fMarkLen es hbf time) &&
        decide ((markPattern LogicFilter.tdcHit t.fTimeRegionSize t.fMarkLen es hbf
          time).toNat < 2 ^ n)) := by
    intro time htime
    rw [← hcut]
    exact congrArg u.fTMap.lookUp (patternOf_congr (halike time (by omega)))
  rw [risingEdges_congr hcells]
  refine risingEdges_mask_eq_iff.trans ?_
  simp only [decide_eq_true_eq, markPattern_lt_iff_quiet ht.room, ← Bool.not_eq_true]
  constructor
  · intro h time hone htime
    exact h time hone (by omega)
  · intro h time hone htime
    exact h time hone (by omega)

/-- On a formula in postfix form whose evaluation is defined, and for segments that
are marked alike, the two engines return the same hits exactly when the formula is
undisturbed by the other signals. -/
theorem engines_agree_iff {text : Text}
    (hrpn : text.take 3 = ['R', 'P', 'N'] ∨ text.take 3 = ['r', 'p', 'n'])
    (hsig : (LogiCalc.ofRpn text).fSigMax ≤ 30)
    (hdefined : ∀ v, ∃ b, (LogiCalc.ofRpn text).calcFormula v = .ok b) {es : List Entry}
    (hlen : es.length ≤ 32) {size : BitVec 32} (hpos : 0 < size.toNat) (markLen : Int)
    (contents contents' : List (BitVec 32)) :
    ∃ tm em, ({} : TriggerMap).makeTable text = .ok tm ∧
      ({} : Exam6.TriggerMap).makeTable text = .ok em ∧
      ∃ t u, (setTimeRegion { fMarkLen := markLen, fTMap := tm } size contents).register es =
          .ok t ∧
        (setTimeRegion { fMarkLen := markLen, fTMap := em } size contents').register es = .ok u ∧
        ∀ (earlier : List (List HBFIndex)) (hbf : List HBFIndex),
          MarkedAlike size markLen es hbf →
          (((earlier.foldl (exec LogicFilter.triggerCopy) t).exec
              LogicFilter.triggerCopy hbf).fHits =
            ((earlier.foldl (exec Exam6.triggerCopy) u).exec Exam6.triggerCopy hbf).fHits ↔
          Undisturbed tm size markLen es hbf ((LogiCalc.ofRpn text).fSigMax + 1)) := by
  choose value hvalue using hdefined
  obtain ⟨tm, htm, htable⟩ :=
    TriggerMap.lookUp_makeTable (LogiCalc.setFormula_rpn infixtorpn hrpn) hsig hvalue
  obtain ⟨em, hem, hutable⟩ :=
    Exam6.TriggerMap.lookUp_makeTable (LogiCalc.setFormula_rpn Exam6.infixtorp hrpn) hsig hvalue
  obtain ⟨t, ht, htready, htconfig⟩ :=
    register_ready { fMarkLen := markLen, fTMap := tm } hlen hpos contents
  obtain ⟨u, hu, huready, huconfig⟩ :=
    register_ready { fMarkLen := markLen, fTMap := em } hlen hpos contents'
  refine ⟨tm, em, htm, hem, t, u, ht, hu, ?_⟩
  intro earlier hbf halike
  obtain ⟨htready', htconfig'⟩ := htready.foldl_exec LogicFilter.triggerCopy earlier
  obtain ⟨huready', huconfig'⟩ := huready.foldl_exec Exam6.triggerCopy earlier
  have htall := htconfig.trans htconfig'
  have huall := huconfig.trans huconfig'
  have hagree := htready'.hits_eq_iff huready' (huall.size.trans htall.size.symm)
    (huall.markLen.trans htall.markLen.symm)
    (fun v => by rw [htall.table]; exact (htable v).2)
    (fun v => by rw [huall.table]; exact hutable v)
    (by rw [htall.size, htall.markLen]; exact halike)
  rw [htall.size, htall.markLen, htall.table] at hagree
  exact hagree

/-- The formula `1 0 &` on two signals. -/
theorem engines_agree_iff_two_signals :
    ∃ tm em, ({} : TriggerMap).makeTable "RPN 1 0 &".toList = .ok tm ∧
      ({} : Exam6.TriggerMap).makeTable "RPN 1 0 &".toList = .ok em ∧
      ∃ t u, (setTimeRegion { fMarkLen := 10, fTMap := tm } (BitVec.ofNat 32 131072) []).register
            [⟨0x20, 5, 0⟩, ⟨0x20, 6, 0⟩] = .ok t ∧
        (setTimeRegion { fMarkLen := 10, fTMap := em } (BitVec.ofNat 32 131072) []).register
            [⟨0x20, 5, 0⟩, ⟨0x20, 6, 0⟩] = .ok u ∧
        ∀ (earlier : List (List HBFIndex)) (hbf : List HBFIndex),
          MarkedAlike (BitVec.ofNat 32 131072) 10 [⟨0x20, 5, 0⟩, ⟨0x20, 6, 0⟩] hbf →
          (((earlier.foldl (exec LogicFilter.triggerCopy) t).exec
              LogicFilter.triggerCopy hbf).fHits =
            ((earlier.foldl (exec Exam6.triggerCopy) u).exec Exam6.triggerCopy hbf).fHits ↔
          Undisturbed tm (BitVec.ofNat 32 131072) 10 [⟨0x20, 5, 0⟩, ⟨0x20, 6, 0⟩] hbf
            ((LogiCalc.ofRpn "RPN 1 0 &".toList).fSigMax + 1)) :=
  engines_agree_iff (by decide) (by decide) (fun v => ⟨_, rfl⟩) (by decide) (by decide) 10 [] []

/-- Leading edges of the channels 5 and 6 of one module at time 1000. -/
def edgesOfTwoChannels : HBFIndex where
  msgIndex := 0
  timeFrameId := 0
  femType := SubTimeFrame.TDC64H
  femId := 0x20
  data := [0x00, 0x80, 0x3e, 0x00, 0x00, 0x00, 0x28, 0x2c,
    0x00, 0x80, 0x3e, 0x00, 0x00, 0x00, 0x30, 0x2c]

theorem signalAt_edgesOfTwoChannels (time i : Nat) :
    SignalAt 131072 10 [⟨0x20, 5, 0⟩, ⟨0x20, 6, 0⟩] [edgesOfTwoChannels] time i ↔
      i < 2 ∧ |(time : Int) - 1000| ≤ 5 := by
  have hwords : words edgesOfTwoChannels.data = [0x2c280000003e8000#64, 0x2c300000003e8000#64] := by
    decide
  have hfirst : leadingEdge edgesOfTwoChannels.femType 0x2c280000003e8000#64 =
      some (5, 1000) := by decide
  have hsecond : leadingEdge edgesOfTwoChannels.femType 0x2c300000003e8000#64 =
      some (6, 1000) := by decide
  constructor
  · rintro ⟨e, he, seg, hseg, -, w, hw, tdc4n, hedge, -, hnear⟩
    obtain rfl := List.mem_singleton.mp hseg
    have hi := (List.getElem?_eq_some_iff.mp he).1
    have htime : tdc4n = 1000 ∧ e.offset = 0 := by
      constructor
      · rw [hwords] at hw
        cases List.mem_pair.mp hw with
        | inl heq =>
            subst heq
            rw [hfirst, Option.some_inj, Prod.mk.injEq] at hedge
            exact hedge.2.symm
        | inr heq =>
            subst heq
            rw [hsecond, Option.some_inj, Prod.mk.injEq] at hedge
            exact hedge.2.symm
      · have hmem := List.mem_of_getElem? he
        rcases List.mem_pair.mp hmem with rfl | rfl <;> rfl
    rw [htime.1, htime.2] at hnear
    exact ⟨hi, hnear⟩
  · rintro ⟨hi, hnear⟩
    have hcase : i = 0 ∨ i = 1 := by omega
    cases hcase with
    | inl heq =>
        subst heq
        exact ⟨⟨0x20, 5, 0⟩, rfl, edgesOfTwoChannels, List.mem_singleton_self _, rfl,
          0x2c280000003e8000#64, by rw [hwords]; exact List.mem_cons_self, 1000, hfirst,
          by decide, hnear⟩
    | inr heq =>
        subst heq
        exact ⟨⟨0x20, 6, 0⟩, rfl, edgesOfTwoChannels, List.mem_singleton_self _, rfl,
          0x2c300000003e8000#64, by rw [hwords]; simp, 1000, hsecond, by decide, hnear⟩

theorem getLsbD_markPattern_edgesOfTwoChannels {time i : Nat} (htime : time < 131072)
    (hi : i < 32) :
    (markPattern LogicFilter.tdcHit (BitVec.ofNat 32 131072) 10 [⟨0x20, 5, 0⟩, ⟨0x20, 6, 0⟩]
        [edgesOfTwoChannels] time).getLsbD i = true ↔
      i < 2 ∧ |(time : Int) - 1000| ≤ 5 := by
  rw [markPattern_eq_signalPattern (by decide) (by decide) (by decide) _ _ htime,
    signalPattern, getLsbD_patternOf hi, signalAt_edgesOfTwoChannels]

/-- The second signal is present when a formula that is signal 0 turns true. -/
theorem disturbed_edgesOfTwoChannels {tm : TriggerMap} (h : ∀ v, tm.lookUp v = v.getLsbD 0) :
    ¬ Undisturbed tm (BitVec.ofNat 32 131072) 10 [⟨0x20, 5, 0⟩, ⟨0x20, 6, 0⟩]
      [edgesOfTwoChannels] 1 := by
  have hholds : ∀ time < 131072, Holds tm (BitVec.ofNat 32 131072) 10
      [⟨0x20, 5, 0⟩, ⟨0x20, 6, 0⟩] [edgesOfTwoChannels] time ↔ |(time : Int) - 1000| ≤ 5 := by
    intro time htime
    rw [Holds, h, getLsbD_markPattern_edgesOfTwoChannels htime (by decide)]
    exact and_iff_right (by decide)
  intro hundisturbed
  have hquiet := (hundisturbed 995 (by decide) (by decide)
    ((hholds 995 (by decide)).mpr (by decide))).1
    (fun hbefore => absurd ((hholds 994 (by decide)).mp hbefore) (by decide))
  rw [← markPattern_lt_iff_quiet (by decide), lt_two_pow_iff_getLsbD] at hquiet
  have hmarked := (@getLsbD_markPattern_edgesOfTwoChannels 995 1 (by decide) (by decide)).mpr
    (by decide)
  rw [hquiet 1 (by decide) (by decide)] at hmarked
  cases hmarked

/-- The formula `0` next to a registered signal 1 that fires at the same time: the
engines return different hits. -/
theorem unrelated_signal_hides_trigger :
    ∃ tm em, ({} : TriggerMap).makeTable "RPN 0".toList = .ok tm ∧
      ({} : Exam6.TriggerMap).makeTable "RPN 0".toList = .ok em ∧
      ∃ t u, (setTimeRegion { fMarkLen := 10, fTMap := tm } (BitVec.ofNat 32 131072) []).register
            [⟨0x20, 5, 0⟩, ⟨0x20, 6, 0⟩] = .ok t ∧
        (setTimeRegion { fMarkLen := 10, fTMap := em } (BitVec.ofNat 32 131072) []).register
            [⟨0x20, 5, 0⟩, ⟨0x20, 6, 0⟩] = .ok u ∧
        (t.exec LogicFilter.triggerCopy [edgesOfTwoChannels]).fHits ≠
          (u.exec Exam6.triggerCopy [edgesOfTwoChannels]).fHits := by
  have hvalue : ∀ v, (LogiCalc.ofRpn "RPN 0".toList).calcFormula v = .ok (v.getLsbD 0) := by
    intro v
    exact congrArg Except.ok (LogiCalc.extractBit_natCast v 0)
  have hsig : (LogiCalc.ofRpn "RPN 0".toList).fSigMax = 0 := by decide
  obtain ⟨tm, htm, htable⟩ := TriggerMap.lookUp_makeTable
    (LogiCalc.setFormula_rpn infixtorpn (by decide)) (by decide) hvalue
  obtain ⟨em, hem, hutable⟩ := Exam6.TriggerMap.lookUp_makeTable
    (LogiCalc.setFormula_rpn Exam6.infixtorp (by decide)) (by decide) hvalue
  obtain ⟨t, ht, htready, htconfig⟩ := register_ready
    ({ fMarkLen := 10, fTMap := tm } : Trigger TriggerMap)
    (show [(⟨0x20, 5, 0⟩ : Entry), ⟨0x20, 6, 0⟩].length ≤ 32 by decide)
    (show 0 < (BitVec.ofNat 32 131072).toNat by decide) []
  obtain ⟨u, hu, huready, huconfig⟩ := register_ready
    ({ fMarkLen := 10, fTMap := em } : Trigger Exam6.TriggerMap)
    (show [(⟨0x20, 5, 0⟩ : Entry), ⟨0x20, 6, 0⟩].length ≤ 32 by decide)
    (show 0 < (BitVec.ofNat 32 131072).toNat by decide) []
  refine ⟨tm, em, htm, hem, t, u, ht, hu, ?_⟩
  have hvalueT : ∀ v, t.fTMap.lookUp v =
      (fun v : BitVec 32 => v.getLsbD 0) (BitVec.ofNat 32 (v.toNat % 2 ^ 1)) := by
    intro v
    rw [htconfig.table]
    exact (htable v).2
  have hvalueU : ∀ v, u.fTMap.lookUp v =
      ((fun v : BitVec 32 => v.getLsbD 0) v && decide (v.toNat < 2 ^ 1)) := by
    intro v
    rw [huconfig.table]
    exact hutable v
  have halike : MarkedAlike t.fTimeRegionSize t.fMarkLen [⟨0x20, 5, 0⟩, ⟨0x20, 6, 0⟩]
      [edgesOfTwoChannels] := markedAlike_of_no_TDC64L_V3 (by decide) _ _ _
  have hagree := htready.hits_eq_iff huready (huconfig.size.trans htconfig.size.symm)
    (huconfig.markLen.trans htconfig.markLen.symm) hvalueT hvalueU halike
  rw [htconfig.size, htconfig.markLen, htconfig.table] at hagree
  have hfirst : ∀ v, tm.lookUp v = v.getLsbD 0 := by
    intro v
    rw [(htable v).2, hsig, BitVec.getLsbD_ofNat, Nat.testBit_mod_two_pow, BitVec.testBit_toNat]
    rfl
  exact fun heq => disturbed_edgesOfTwoChannels hfirst (hagree.mp heq)

end Trigger
end Userworks
