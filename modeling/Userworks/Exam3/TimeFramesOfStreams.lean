import Userworks.Elph2018.TimeFrameFates
import Userworks.Exam3.SubTimeFrameBuilding
import Userworks.Lib.Slices

/-!
From the streams of the front ends to time frames. Each front end has a sub time frame
builder, which numbers the sub time frames of its stream and deals them out to the time
frame builders by their numbers. The builder here is that of the 2018 tests.

So the sub time frames of one number meet in one builder, whatever the order in which
those of different front ends come.
-/
namespace Userworks
namespace Elph2018
namespace TimeFrameBuilder

open Userworks.TimeFrameBuilder (STFBuffer Input arrivals receivedBy)

/-- The options of the sub time frame builder of a front end, and the messages it is
given. -/
structure FrontEnd where
  opts : HulStrTdcSTFBuilder.Options := {}
  msgs : List Bytes

namespace FrontEnd

/-- The sub time frames that are sent. -/
def sent (f : FrontEnd) : List HulStrTdc.SubTimeFrame :=
  match HulStrTdcSTFBuilder.run (HulStrTdcSTFBuilder.initTask f.opts) f.msgs with
  | .ok (stfs, _) => stfs
  | .error _ => []

/-- `h->timeFrameId % fNumDestination`. -/
def direction (fNumDestination : Nat) (stf : HulStrTdc.SubTimeFrame) : Nat :=
  stf.header.timeFrameId.toNat % fNumDestination

/-- The sub time frames for one of the time frame builders. -/
def sentTo (f : FrontEnd) (fNumDestination d : Nat) : List HulStrTdc.SubTimeFrame :=
  f.sent.filter fun stf => direction fNumDestination stf = d

/-- The parts of the sub time frame number `k`. -/
def frame (f : FrontEnd) (k : Nat) : List Bytes :=
  (f.sent[k]?.map HulStrTdc.SubTimeFrame.parts).getD []

/-- The words of the stream that the sub time frame builder takes. -/
def words (f : FrontEnd) : List HulStrTdc.TdcWord :=
  (f.msgs.flatMap HulStrTdc.tdcWords).filter HulStrTdcSTFBuilder.isHeadValid

structure Configured (f : FrontEnd) : Prop where
  pos : 1 ≤ f.opts.maxHBF
  lt : f.opts.maxHBF < 2 ^ 30

variable {f : FrontEnd}

theorem Configured.run (h : f.Configured) :
    ∃ s, HulStrTdcSTFBuilder.run (HulStrTdcSTFBuilder.initTask f.opts) f.msgs = .ok (f.sent, s) ∧
      (∀ (k : Nat) (stf : HulStrTdc.SubTimeFrame), f.sent[k]? = some stf →
        stf.Correct f.opts.maxHBF k) ∧
      f.sent.flatMap HulStrTdc.SubTimeFrame.words ++ s.buffered = f.words := by
  obtain ⟨s, hloop, hholds⟩ := (HulStrTdcSTFBuilder.holds_initTask f.opts h.pos h.lt).loop
    (fun _ => Int.lt_of_lt_of_le Int.zero_lt_one h.pos) (f.msgs.flatMap HulStrTdc.tdcWords)
  have hrun : HulStrTdcSTFBuilder.run (HulStrTdcSTFBuilder.initTask f.opts) f.msgs =
      .ok (s.fOutputPayloads, { s with fOutputPayloads := [] }) := by
    rw [HulStrTdcSTFBuilder.run_eq_loop rfl, hloop]
    rfl
  have hsent : f.sent = s.fOutputPayloads := by rw [sent, hrun]
  refine ⟨{ s with fOutputPayloads := [] }, hsent ▸ hrun, ?_, ?_⟩
  · intro k stf hstf
    rw [hsent] at hstf
    rw [← hholds.max_eq]
    exact hholds.queue k stf hstf
  · rw [hsent, words, ← List.nil_append (f.msgs.flatMap HulStrTdc.tdcWords), ← hholds.all,
      List.append_assoc]
    rfl

theorem Configured.correct (h : f.Configured) {k : Nat} {stf : HulStrTdc.SubTimeFrame}
    (hstf : f.sent[k]? = some stf) : stf.Correct f.opts.maxHBF k := by
  obtain ⟨-, -, hcorrect, -⟩ := h.run
  exact hcorrect k stf hstf

end FrontEnd

theorem timeFrameId_parts (source : Nat) (stf : HulStrTdc.SubTimeFrame) :
    timeFrameId ⟨source, stf.parts⟩ = stf.header.timeFrameId := by
  rw [timeFrameId, HulStrTdc.SubTimeFrame.parts, List.headD_cons, HulStrTdc.Header.encode]
  simp [field_put_skip]

/-- A sub time frame has a message behind its header, as a delimiter has closed it. -/
theorem formed_parts {max : Int} {k : Nat} {stf : HulStrTdc.SubTimeFrame} (hmax : 1 ≤ max)
    (h : stf.Correct max k) (source : Nat) : Formed ⟨source, stf.parts⟩ := by
  have hsome : stf.payloads ≠ [] := by
    intro hnil
    have hwords : stf.words = [] := by rw [HulStrTdc.SubTimeFrame.words, hnil, List.flatten_nil]
    have hopen : ¬ stf.ClosedBySpillEnd := by
      rintro ⟨before, w, heq, -⟩
      rw [hwords] at heq
      exact List.append_ne_nil_of_right_ne_nil before (List.cons_ne_nil w []) heq.symm
    have hfull := h.full hopen
    rw [hwords] at hfull
    have hnone : (HulStrTdc.delimiters [] : Int) = 0 := rfl
    omega
  constructor
  · have hpos := List.length_pos_iff.mpr hsome
    simp only [HulStrTdc.SubTimeFrame.parts, List.length_cons, List.length_map]
    omega
  · simp [HulStrTdc.SubTimeFrame.parts, HulStrTdc.Header.encode, STF.Header.size]

/-- The number of a sub time frame is its place, as long as the numbers have not come
round. -/
theorem timeFrameId_sent {f : FrontEnd} (h : f.Configured) (hlong : f.sent.length ≤ 2 ^ 32)
    {k : Nat} {stf : HulStrTdc.SubTimeFrame} (hstf : f.sent[k]? = some stf) :
    stf.header.timeFrameId.toNat = k := by
  have hk : k < f.sent.length := List.getElem?_eq_some_iff.mp hstf |>.1
  rw [(h.correct hstf).timeFrameId_eq, Nat.mod_eq_of_lt (Nat.lt_of_lt_of_le hk hlong)]

theorem nodup_timeFrameId {f : FrontEnd} (h : f.Configured) (hlong : f.sent.length ≤ 2 ^ 32) :
    (f.sent.map fun stf => stf.header.timeFrameId).Nodup := by
  rw [List.nodup_iff_injective_getElem]
  intro j k hjk
  simp only [List.getElem_map] at hjk
  have hj := timeFrameId_sent h hlong (List.getElem?_eq_getElem (by simpa using j.isLt))
  have hk := timeFrameId_sent h hlong (List.getElem?_eq_getElem (by simpa using k.isLt))
  rw [hjk] at hj
  exact Fin.ext (hj.symm.trans hk)

/-- What the builder number `d` receives: from each front end, in order, the sub time
frames that are dealt to it. Nothing is said about how those of different front ends
alternate. -/
structure Dealt (n : Nat) (frontEnds : Nat → FrontEnd) (fNumDestination d : Nat)
    (received : List Arrival) : Prop where
  sources : ∀ a ∈ received, a.source < n
  streams : ∀ i < n, (ofSource Userworks.TimeFrameBuilder.Arrival.source i received).map
      Userworks.TimeFrameBuilder.Arrival.parts =
    ((frontEnds i).sentTo fNumDestination d).map HulStrTdc.SubTimeFrame.parts

section Dealt

variable {n fNumDestination d : Nat} {frontEnds : Nat → FrontEnd} {received : List Arrival}

/-- Where a sub time frame comes from. -/
theorem Dealt.origin (h : Dealt n frontEnds fNumDestination d received) {a : Arrival}
    (ha : a ∈ received) :
    ∃ (k : Nat) (stf : HulStrTdc.SubTimeFrame), (frontEnds a.source).sent[k]? = some stf ∧
      a = ⟨a.source, stf.parts⟩ ∧ FrontEnd.direction fNumDestination stf = d := by
  have hown : a ∈ ofSource Userworks.TimeFrameBuilder.Arrival.source a.source received :=
    List.mem_filter.mpr ⟨ha, decide_eq_true rfl⟩
  have hparts := List.mem_map_of_mem (f := Userworks.TimeFrameBuilder.Arrival.parts) hown
  rw [h.streams a.source (h.sources a ha)] at hparts
  obtain ⟨stf, hstf, heq⟩ := List.mem_map.mp hparts
  obtain ⟨hsent, hdirection⟩ := List.mem_filter.mp hstf
  obtain ⟨k, hk⟩ := List.mem_iff_getElem?.mp hsent
  refine ⟨k, stf, hk, ?_, of_decide_eq_true hdirection⟩
  rw [heq]

theorem Dealt.formed (hconfigured : ∀ i < n, (frontEnds i).Configured)
    (h : Dealt n frontEnds fNumDestination d received) {a : Arrival} (ha : a ∈ received) :
    Formed a := by
  obtain ⟨k, stf, hstf, heq, -⟩ := h.origin ha
  have hsource := hconfigured a.source (h.sources a ha)
  rw [heq]
  exact formed_parts hsource.pos (hsource.correct hstf) a.source

theorem Dealt.numbers (h : Dealt n frontEnds fNumDestination d received) {i : Nat} (hi : i < n) :
    (ofSource Userworks.TimeFrameBuilder.Arrival.source i received).map timeFrameId =
      ((frontEnds i).sentTo fNumDestination d).map fun stf => stf.header.timeFrameId := by
  have hmap := congrArg (List.map fun parts => timeFrameId ⟨0, parts⟩) (h.streams i hi)
  rw [List.map_map, List.map_map] at hmap
  refine hmap.trans (List.map_congr_left fun stf _ => ?_)
  exact timeFrameId_parts 0 stf

variable (hconfigured : ∀ i < n, (frontEnds i).Configured)
  (hlong : ∀ i < n, (frontEnds i).sent.length ≤ 2 ^ 32)
include hconfigured hlong

theorem Dealt.sliced (h : Dealt n frontEnds fNumDestination d received) :
    Sliced Userworks.TimeFrameBuilder.Arrival.source timeFrameId n received where
  sources := h.sources
  numbers := by
    intro i hi
    rw [h.numbers hi]
    exact (nodup_timeFrameId (hconfigured i hi) (hlong i hi)).sublist
      (List.filter_sublist.map _)

/-- The sub time frame of a number that came from a front end. -/
theorem Dealt.parts_eq (h : Dealt n frontEnds fNumDestination d received) {a : Arrival}
    (ha : a ∈ received) : a.parts = (frontEnds a.source).frame (timeFrameId a).toNat := by
  obtain ⟨k, stf, hstf, heq, -⟩ := h.origin ha
  have hsource := h.sources a ha
  have hk := timeFrameId_sent (hconfigured _ hsource) (hlong _ hsource) hstf
  have hid : timeFrameId a = stf.header.timeFrameId := by
    rw [heq]
    exact timeFrameId_parts a.source stf
  rw [hid, hk, FrontEnd.frame, hstf, heq]
  rfl

/-- The slice of a number is complete where the number is dealt to, once every front end
has come so far. -/
theorem Dealt.complete_iff (hn : 1 ≤ n) (h : Dealt n frontEnds fNumDestination d received)
    {stfId : BitVec 32} :
    SliceComplete Userworks.TimeFrameBuilder.Arrival.source timeFrameId n stfId received ↔
      (∀ i < n, stfId.toNat < (frontEnds i).sent.length) ∧ stfId.toNat % fNumDestination = d := by
  have hsource : ∀ i < n,
      stfId ∈ (ofSource Userworks.TimeFrameBuilder.Arrival.source i received).map timeFrameId ↔
        stfId.toNat < (frontEnds i).sent.length ∧ stfId.toNat % fNumDestination = d := by
    intro i hi
    rw [h.numbers hi]
    constructor
    · intro hmem
      obtain ⟨stf, hstf, rfl⟩ := List.mem_map.mp hmem
      obtain ⟨hsent, hdirection⟩ := List.mem_filter.mp hstf
      obtain ⟨k, hk⟩ := List.mem_iff_getElem?.mp hsent
      refine ⟨?_, of_decide_eq_true hdirection⟩
      rw [timeFrameId_sent (hconfigured i hi) (hlong i hi) hk]
      exact (List.getElem?_eq_some_iff.mp hk).1
    · rintro ⟨hlt, hdirection⟩
      have hstf := List.getElem?_eq_getElem hlt
      have hk := timeFrameId_sent (hconfigured i hi) (hlong i hi) hstf
      refine List.mem_map.mpr ⟨_, List.mem_filter.mpr ⟨List.mem_of_getElem? hstf, ?_⟩,
        BitVec.eq_of_toNat_eq hk⟩
      rw [FrontEnd.direction, hk]
      exact decide_eq_true hdirection
  constructor
  · intro hall
    exact ⟨fun i hi => ((hsource i hi).mp (hall i hi)).1, ((hsource 0 hn).mp (hall 0 hn)).2⟩
  · rintro ⟨hlt, hdirection⟩ i hi
    exact (hsource i hi).mpr ⟨hlt i hi, hdirection⟩

end Dealt

/-- What a builder has done with a number, where `frame i` has the parts of the sub time
frame of the front end `i`. -/
inductive Handled (cfg : Config) (clock : Nat → Int) (stfId : BitVec 32)
    (frame : Nat → List Bytes) (complete : Prop) : List Event → Prop where
  | nothing : ¬ complete → Handled cfg clock stfId frame complete []
  | whole {tfBuf : List STFBuffer} {parts : List Bytes} {order : List Nat} : complete →
      (Event.sent stfId tfBuf parts).Correct cfg clock →
      order.Perm (List.range cfg.fNumSource) → parts.tail = order.flatMap frame →
      Handled cfg clock stfId frame complete [.sent stfId tfBuf parts]
  | tooOld {tfBuf : List STFBuffer} {now : Int} {late : List Arrival} :
      tfBuf.length < cfg.fNumSource → (Event.discarded stfId tfBuf now).Correct cfg clock →
      Handled cfg clock stfId frame complete (.discarded stfId tfBuf now :: late.map .refused)

theorem refused_of_dropped {events : List Event} {late : List Arrival}
    (h : events.map Event.fate = late.map .dropped) : events = late.map .refused := by
  induction late generalizing events with
  | nil => exact List.map_eq_nil_iff.mp h
  | cons a late ih =>
      obtain ⟨event, rest, rfl, hevent, hrest⟩ := List.map_eq_cons_iff.mp h
      rw [ih hrest, List.map_cons]
      cases event with
      | sent | discarded => cases hevent
      | refused b =>
          cases hevent
          rfl

section Handled

variable {cfg : Config} {clock : Nat → Int} {frontEnds : Nat → FrontEnd} {fNumDestination d : Nat}
  {received : List Arrival} {stfId : BitVec 32} {s : State}

/-- What was sent for a number. -/
theorem handled_of_delivered (hcorrect : ∀ event ∈ s.events, event.Correct cfg clock)
    {frame : Nat → List Bytes} {complete : Prop} (hcomplete : complete) {group : List Arrival}
    (hparts : ∀ a ∈ group, a.parts = frame a.source)
    (hsources : (group.map Userworks.TimeFrameBuilder.Arrival.source).Perm
      (List.range cfg.fNumSource))
    (hfates : (view stfId s).fates = [.delivered group]) :
    Handled cfg clock stfId frame complete (s.events.filter fun event => event.stfId = stfId) := by
  obtain ⟨event, hevents, hfate⟩ := List.map_eq_singleton_iff.mp hfates
  have hmem : event ∈ s.events.filter fun event => event.stfId = stfId :=
    hevents ▸ List.mem_singleton_self event
  obtain ⟨hold, hid⟩ := List.mem_filter.mp hmem
  rw [hevents]
  cases event with
  | discarded | refused => cases hfate
  | sent key tfBuf parts =>
      have hkey : key = stfId := of_decide_eq_true hid
      subst hkey
      obtain ⟨header, hheader, -⟩ := hcorrect _ hold
      have hgroup : arrivals tfBuf = group := Fate.delivered.inj hfate
      have hframes : (group.flatMap fun a => a.parts) =
          (group.map Userworks.TimeFrameBuilder.Arrival.source).flatMap frame := by
        rw [List.flatMap_map]
        exact List.flatMap_congr fun a ha => hparts a ha
      refine .whole hcomplete (hcorrect _ hold) hsources ?_
      rw [hheader, List.tail_cons, hgroup, hframes]

/-- What was discarded for a number, and what came behind it. -/
theorem handled_of_givenUp (hcorrect : ∀ event ∈ s.events, event.Correct cfg clock)
    {frame : Nat → List Bytes} {complete : Prop} {part late : List Arrival}
    (hshort : part.length < cfg.fNumSource)
    (hfates : (view stfId s).fates = .givenUp part :: late.map .dropped) :
    Handled cfg clock stfId frame complete (s.events.filter fun event => event.stfId = stfId) := by
  obtain ⟨event, rest, hevents, hfate, hrest⟩ := List.map_eq_cons_iff.mp hfates
  have hmem : event ∈ s.events.filter fun event => event.stfId = stfId :=
    hevents ▸ List.mem_cons_self
  obtain ⟨hold, hid⟩ := List.mem_filter.mp hmem
  rw [hevents, refused_of_dropped hrest]
  cases event with
  | sent | refused => cases hfate
  | discarded key tfBuf now =>
      have hkey : key = stfId := of_decide_eq_true hid
      subst hkey
      have hpart : arrivals tfBuf = part := Fate.givenUp.inj hfate
      refine .tooOld ?_ (hcorrect _ hold)
      rwa [← hpart, arrivals, List.length_map] at hshort

theorem Dealt.handled (hsource : 1 ≤ cfg.fNumSource)
    (hconfigured : ∀ i < cfg.fNumSource, (frontEnds i).Configured)
    (hlong : ∀ i < cfg.fNumSource, (frontEnds i).sent.length ≤ 2 ^ 32)
    (h : Dealt cfg.fNumSource frontEnds fNumDestination d received)
    (hcorrect : ∀ event ∈ s.events, event.Correct cfg clock)
    (hsettled : Collector.Settled cfg.fNumSource (ofNumber stfId received) (view stfId s)) :
    Handled cfg clock stfId (fun i => (frontEnds i).frame stfId.toNat)
      ((∀ i < cfg.fNumSource, stfId.toNat < (frontEnds i).sent.length) ∧
        stfId.toNat % fNumDestination = d)
      (s.events.filter fun event => event.stfId = stfId) := by
  have hsliced := h.sliced hconfigured hlong
  have hcomplete : SliceComplete Userworks.TimeFrameBuilder.Arrival.source timeFrameId
      cfg.fNumSource stfId received ↔ _ := h.complete_iff hconfigured hlong hsource
  obtain ⟨hshort, hfates⟩ | ⟨hfull, hfates⟩ | ⟨part, late, -, hshort, hfates⟩ :=
    hsettled.of_few hsource (length_slice_le hsliced stfId)
  · rw [List.map_eq_nil_iff.mp hfates]
    refine .nothing fun hall => ?_
    exact Nat.ne_of_lt hshort ((sliceComplete_iff hsliced).mp (hcomplete.mpr hall))
  · have hslice := (sliceComplete_iff hsliced).mpr hfull
    refine handled_of_delivered hcorrect (hcomplete.mp hslice) ?_
      (sources_slice_perm hsliced hslice) hfates
    intro a ha
    obtain ⟨hmem, hid⟩ := List.mem_filter.mp ha
    rw [h.parts_eq hconfigured hlong hmem, of_decide_eq_true hid]
  · exact handled_of_givenUp hcorrect hshort hfates

end Handled

end TimeFrameBuilder
end Elph2018
end Userworks
