import Userworks.Exam6.SuppressionRuns

/-!
The filter of exam6 does not depend on the order in which the sub time frames of a time
frame arrive, as long as each of them has a message: a row holds the same segments, the
same rows are searched, and so every sub time frame is cut down to the same messages.
-/
namespace Userworks
namespace Exam6

open LogicFilter (HeartbeatMessage SubFrame frameParts)
open TimeFrameBuilder (totalLength)

namespace FltTrig

theorem grouped_of_full {stfs : List SubFrame} (hfull : ∀ stf ∈ stfs, stf.messages ≠ []) :
    grouped stfs = stfs := by
  induction stfs with
  | nil => rfl
  | cons stf stfs ih =>
      rw [List.forall_mem_cons] at hfull
      cases stfs with
      | nil => rfl
      | cons next stfs =>
          rw [grouped, if_neg hfull.1, ih hfull.2]
          rfl

section Reordered

variable {stfs stfs' : List SubFrame} (h : stfs.Perm stfs')

include h in
theorem searchedRows_perm (fSplitMethod : Int) (hne : stfs ≠ [])
    (hfull : ∀ stf ∈ stfs, stf.messages ≠ []) :
    searchedRows fSplitMethod stfs = searchedRows fSplitMethod stfs' := by
  have hne' : stfs' ≠ [] := by
    rintro rfl
    exact hne h.eq_nil
  have hfull' : ∀ stf ∈ stfs', stf.messages ≠ [] := fun stf hstf =>
    hfull stf (h.mem_iff.mpr hstf)
  apply eq_of_forall_lt_iff
  intro i
  rw [← searched_iff fSplitMethod hne, ← searched_iff fSplitMethod hne', Searched, Searched,
    grouped_of_full hfull, grouped_of_full hfull']
  simp only [h.mem_iff]

include h in
theorem rowTimes_perm (s : Selection) (fSplitMethod : Int) (i : Nat) :
    rowTimes s fSplitMethod stfs i = rowTimes s fSplitMethod stfs' i := by
  apply s.times_congr
  intro seg
  simp only [mem_rowSegments_iff, h.mem_iff]

include h in
theorem keptOf_perm (s : Selection) (fSplitMethod : Int) (hne : stfs ≠ [])
    (hfull : ∀ stf ∈ stfs, stf.messages ≠ []) :
    keptOf s fSplitMethod stfs = keptOf s fSplitMethod stfs' := by
  have hleft : LeftOut s fSplitMethod stfs = LeftOut s fSplitMethod stfs' := by
    funext stf part
    rw [LeftOut, LeftOut, searchedRows_perm h fSplitMethod hne hfull,
      rowTimes_perm h s fSplitMethod]
  funext stf
  rw [keptOf, hleft, ← keptOf]

theorem totalLength_perm {as bs : List Bytes} (h : as.Perm bs) : totalLength as = totalLength bs :=
  (h.map List.length).sum_eq

include h in
/-- The two headers are the same, and so is what is sent of each sub time frame. -/
theorem sentFrame_perm (s : Selection) (f : FltTrig) (now : Clock) (tf : TimeFrame.Header)
    (hne : stfs ≠ []) (hfull : ∀ stf ∈ stfs, stf.messages ≠ []) :
    ∃ fltHeader tfHeader,
      f.sentFrame s stfs now tf = fltHeader :: tfHeader :: sentStfs s f.fSplitMethod stfs ∧
      f.sentFrame s stfs' now tf = fltHeader :: tfHeader :: stfs'.flatMap fun stf =>
        headed stf.header (keptOf s f.fSplitMethod stfs stf) := by
  have hsent : sentStfs s f.fSplitMethod stfs' = stfs'.flatMap fun stf =>
      headed stf.header (keptOf s f.fSplitMethod stfs stf) := by
    rw [sentStfs, keptOf_perm h s f.fSplitMethod hne hfull]
  refine ⟨_, _, rfl, ?_⟩
  have hlength := totalLength_perm (h.flatMap_right fun stf =>
    headed stf.header (keptOf s f.fSplitMethod stfs stf))
  rw [← sentStfs] at hlength
  simp only [sentFrame, hsent, hlength, searchedRows_perm h f.fSplitMethod hne hfull,
    rowTimes_perm h s f.fSplitMethod]

end Reordered

end FltTrig

/-- The same time frame with its sub time frames in another order. -/
structure Reordered (a b : ReceivedFrame) : Prop where
  now : b.now = a.now
  header : b.header = a.header
  subFrames : a.subFrames.Perm b.subFrames
  full : ∀ stf ∈ a.subFrames, stf.messages ≠ []

/-- The same headers are sent for two frames, and of each sub time frame the same of its
messages, behind its header if there are any. -/
def SentAlike (a b : ReceivedFrame) (sent sent' : List Bytes) : Prop :=
  ∃ fltHeader tfHeader, ∃ kept : SubFrame → List Bytes,
    (∀ stf, (kept stf).Sublist (stf.messages.map HeartbeatMessage.bytes)) ∧
    sent = fltHeader :: tfHeader :: a.subFrames.flatMap (fun stf =>
      FltTrig.headed stf.header (kept stf)) ∧
    sent' = fltHeader :: tfHeader :: b.subFrames.flatMap fun stf =>
      FltTrig.headed stf.header (kept stf)

namespace FltTrig

theorem keptOf_sublist (s : Selection) (fSplitMethod : Int) (stfs : List SubFrame)
    (stf : SubFrame) :
    (keptOf s fSplitMethod stfs stf).Sublist (stf.messages.map HeartbeatMessage.bytes) := by
  have hrows : (rows fSplitMethod stf).length = stf.messages.length := length_rowsFrom _ _ _ _ _
  have hall : stf.messages.map HeartbeatMessage.bytes =
      (stf.messages.zip (rows fSplitMethod stf)).map fun part => part.1.bytes := by
    conv_lhs => rw [← List.map_fst_zip (Nat.le_of_eq hrows.symm), List.map_map]
    rfl
  rw [keptOf, hall]
  exact List.filter_sublist.map _

/-- Two sequences of time frames that differ in the order of the sub time frames only are
filtered alike, if the clock shows the same at both. -/
theorem run_reordered (f : FltTrig) {o : Options} {e : Expr}
    (hformula : WritesPostfix o.triggerFormula e)
    (hfew : (signalsOf (SignalParser.parsing o.triggerSignals)).length ≤ 32)
    (hsuppress : o.dataSuppress = "true".toList) (hkeep : o.removeHB ≠ "true".toList)
    (contents : List (BitVec 32)) :
    ∃ f', f.initTask contents o = .ok f' ∧
      ∀ pairs : List (ReceivedFrame × ReceivedFrame), (∀ pair ∈ pairs, Reordered pair.1 pair.2) →
        ∃ f₁ f₂, ∃ sent : List (List Bytes × List Bytes),
          f'.run (received (pairs.map Prod.fst)) = .ok (f₁, sent.map Prod.fst) ∧
          f'.run (received (pairs.map Prod.snd)) = .ok (f₂, sent.map Prod.snd) ∧
          List.Forall₂ (fun pair out => SentAlike pair.1 pair.2 out.1 out.2) pairs sent := by
  obtain ⟨f', hinit, hset⟩ := initTask_setUpBy f hformula hfew contents
  refine ⟨f', hinit, fun pairs hpairs => ?_⟩
  have hrun := run_looksFor hset.looksFor (hset.dataSuppress.trans (decide_eq_true hsuppress))
    (hset.removeHB.trans (decide_eq_false hkeep))
  obtain ⟨fTrig, hfirst⟩ := hrun (pairs.map Prod.fst)
  obtain ⟨fTrig', hsecond⟩ := hrun (pairs.map Prod.snd)
  refine ⟨{ f' with fTrig := fTrig }, { f' with fTrig := fTrig' }, pairs.map fun pair =>
    (f'.sentFrame (selection o e) pair.1.subFrames pair.1.now pair.1.header,
      f'.sentFrame (selection o e) pair.2.subFrames pair.2.now pair.2.header), ?_, ?_, ?_⟩
  · rw [List.map_map]
    rw [List.map_map] at hfirst
    exact hfirst
  · rw [List.map_map]
    rw [List.map_map] at hsecond
    exact hsecond
  · rw [List.forall₂_map_right_iff, List.forall₂_same]
    intro pair hpair
    have hsame := hpairs pair hpair
    obtain ⟨fltHeader, tfHeader, hsent, hsent'⟩ := sentFrame_perm hsame.subFrames (selection o e) f'
      pair.1.now pair.1.header pair.1.nonempty hsame.full
    refine ⟨fltHeader, tfHeader, keptOf (selection o e) f'.fSplitMethod pair.1.subFrames,
      keptOf_sublist _ _ _, hsent, ?_⟩
    rw [hsame.now, hsame.header]
    exact hsent'

/-- Two sub time frames in both orders. -/
theorem run_reordered_twoSignals :
    let x : SubFrame := moduleFrame [dataWord, heartbeatWord]
    let y : SubFrame := moduleFrame [heartbeatWord]
    let a : ReceivedFrame := {
      now := ⟨0, 0, 0⟩, header := {}, magic := rfl, subFrames := [x, y],
      nonempty := List.cons_ne_nil _ _, small := by decide }
    let b : ReceivedFrame := {
      now := ⟨0, 0, 0⟩, header := {}, magic := rfl, subFrames := [y, x],
      nonempty := List.cons_ne_nil _ _, small := by decide }
    ∃ f', FltTrig.initTask { fTrig := quietTrigger } [] twoSignals = .ok f' ∧
      ∃ f₁ f₂ out out', f'.run (received [a]) = .ok (f₁, [out]) ∧
        f'.run (received [b]) = .ok (f₂, [out']) ∧ SentAlike a b out out' := by
  intro x y a b
  obtain ⟨f', hinit, hall⟩ := run_reordered { fTrig := quietTrigger } writesPostfix_twoSignals
    (by decide) rfl (by decide) []
  have hsame : ∀ pair ∈ [(a, b)], Reordered pair.1 pair.2 := by
    intro pair hpair
    rw [List.mem_singleton.mp hpair]
    refine ⟨rfl, rfl, List.Perm.swap _ _ _, ?_⟩
    intro stf hstf
    rcases List.mem_pair.mp hstf with rfl | rfl <;> exact List.cons_ne_nil _ _
  obtain ⟨f₁, f₂, sent, hfirst, hsecond, halike⟩ := hall [(a, b)] hsame
  cases halike with
  | @cons _ out _ _ hpair hrest =>
      cases hrest
      exact ⟨f', hinit, f₁, f₂, out.1, out.2, hfirst, hsecond, hpair⟩

end FltTrig
end Exam6
end Userworks
