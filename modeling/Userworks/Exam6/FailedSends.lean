import Userworks.Exam6.TimeFrameSending

/-!
What failed sends do to a time frame. The frame would get through any number of
them, but the first warning about one uses a pointer that has been moved.
-/
namespace Userworks
namespace TimeFrameBuilder

/-- The parts are offered again after every failure, and taken once. -/
def Retried (parts : List Bytes) (failures : Nat) (offers : List Offer) : Prop :=
  offers.map (fun offer => (offer.parts, offer.accepted)) =
    List.replicate failures (parts, false) ++ [(parts, true)]

/-- The time frame gets through all failures: no pointer is used that was moved, and
each channel that is to have the time frame takes it once. -/
def Delivered (cfg : Config) (t : Transport) (s : Sender) (stfId : BitVec 32)
    (tfBuf : List STFBuffer) : Prop :=
  ∃ s' offers, sendFrame cfg t s stfId tfBuf = .ok (s', offers) ∧
    Retried (frameParts cfg stfId tfBuf) (t.rounds.count .failed)
      (offers.filter (·.channel = .output)) ∧
    (Decimated cfg s.fNumSend → ∀ i < cfg.decimatorNumSubChannels,
      Retried (frameParts cfg stfId tfBuf) (t.decimatorFailures i)
        (offers.filter fun offer => offer.channel = .decimator ∧ offer.subChannel = i)) ∧
    s'.fNumSend = s.fNumSend + 1

/-- No send fails in a loop that is run. -/
def NoFailure (cfg : Config) (t : Transport) (s : Sender) : Prop :=
  .failed ∉ t.rounds ∧
    (Decimated cfg s.fNumSend → ∀ i < cfg.decimatorNumSubChannels, t.decimatorFailures i = 0)

section Loops

variable {warn : Bool} {outParts : List Bytes}

theorem logFailure_silent (h : UniquePtr TimeFrame.Header) : logFailure false h = .ok () := rfl

/-- The offers of a loop for a sub-channel of the decimator. -/
def decimatorOffers (outParts : List Bytes) (iSubChannel failures : Nat) : List Offer :=
  List.replicate failures ⟨.decimator, iSubChannel, outParts, false⟩ ++
    [⟨.decimator, iSubChannel, outParts, true⟩]

theorem decimatorLoop_ok (h : UniquePtr TimeFrame.Header) (iSubChannel failures : Nat)
    (hok : warn = false ∨ failures = 0) :
    decimatorLoop warn h outParts iSubChannel failures =
      .ok (decimatorOffers outParts iSubChannel failures) := by
  induction failures with
  | zero => rfl
  | succ failures ih =>
      have hwarn : warn = false := hok.resolve_right (Nat.succ_ne_zero failures)
      subst hwarn
      rw [decimatorLoop, logFailure_silent, ih (Or.inl rfl)]
      rfl

theorem decimatorLoop_moved (iSubChannel : Nat) {failures : Nat} (hfail : failures ≠ 0) :
    decimatorLoop true none outParts iSubChannel failures = .error .undefined := by
  cases failures with
  | zero => exact absurd rfl hfail
  | succ failures => rfl

theorem decimatorLoops_ok {t : Transport} (h : UniquePtr TimeFrame.Header) (is : List Nat)
    (hok : ∀ i ∈ is, t.warn = false ∨ t.decimatorFailures i = 0) :
    decimatorLoops t h outParts is =
      .ok (is.flatMap fun i => decimatorOffers outParts i (t.decimatorFailures i)) := by
  induction is with
  | nil => rfl
  | cons i is ih =>
      rw [decimatorLoops, decimatorLoop_ok h i _ (hok i (by simp)),
        ih fun j hj => hok j (List.mem_cons_of_mem _ hj)]
      rfl

theorem decimatorLoops_moved {t : Transport} (hwarn : t.warn = true) {is : List Nat} {i : Nat}
    (hi : i ∈ is) (hfail : t.decimatorFailures i ≠ 0) :
    decimatorLoops t none outParts is = .error .undefined := by
  induction is with
  | nil => cases hi
  | cons j is ih =>
      rw [decimatorLoops, hwarn]
      by_cases hj : t.decimatorFailures j = 0
      · have hmem : i ∈ is := by
          cases List.mem_cons.mp hi with
          | inl heq => exact absurd (heq ▸ hj) hfail
          | inr hmem => exact hmem
        rw [decimatorLoop_ok none j _ (Or.inr hj), ih hmem]
        rfl
      · rw [decimatorLoop_moved j hj]
        rfl

theorem outputLoop_ok (h : UniquePtr TimeFrame.Header) (fNumDestination fDirection : Nat)
    (rounds : List Round) (hok : warn = false ∨ .failed ∉ rounds) :
    ∃ offers fDirection', outputLoop warn h outParts fNumDestination fDirection rounds =
        .ok (offers, fDirection') ∧
      Retried outParts (rounds.count .failed) offers ∧
      ∀ offer ∈ offers, offer.channel = .output := by
  induction rounds generalizing fDirection with
  | nil => exact ⟨_, _, rfl, rfl, by simp⟩
  | cons round rounds ih =>
      have hrest : warn = false ∨ .failed ∉ rounds :=
        hok.imp_right fun h hmem => h (List.mem_cons_of_mem _ hmem)
      obtain ⟨offers, fDirection', heq, hretried, hchannel⟩ :=
        ih (fDirection % fNumDestination + 1) hrest
      cases round with
      | notReady => exact ⟨offers, fDirection', heq, hretried, hchannel⟩
      | failed =>
          have hwarn : warn = false := hok.resolve_right fun h => h (List.mem_cons_self ..)
          subst hwarn
          refine ⟨⟨.output, fDirection % fNumDestination, outParts, false⟩ :: offers, fDirection',
            ?_, ?_, ?_⟩
          · rw [outputLoop, logFailure_silent, heq]
            rfl
          · rw [Retried, List.count_cons_self, List.map_cons, hretried]
            rfl
          · intro offer hoffer
            cases List.mem_cons.mp hoffer with
            | inl heq => rw [heq]
            | inr hmem => exact hchannel offer hmem

theorem outputLoop_moved (fNumDestination fDirection : Nat) {rounds : List Round}
    (hfail : .failed ∈ rounds) :
    outputLoop true none outParts fNumDestination fDirection rounds = .error .undefined := by
  induction rounds generalizing fDirection with
  | nil => cases hfail
  | cons round rounds ih =>
      cases round with
      | failed => rfl
      | notReady =>
          cases hfail with
          | tail _ hmem => exact ih _ hmem

end Loops

section Offers

variable (outParts : List Bytes)

theorem retried_decimatorOffers (iSubChannel failures : Nat) :
    Retried outParts failures (decimatorOffers outParts iSubChannel failures) := by
  rw [Retried, decimatorOffers, List.map_append, List.map_replicate, List.map_singleton]

theorem mem_decimatorOffers {iSubChannel failures : Nat} {offer : Offer}
    (h : offer ∈ decimatorOffers outParts iSubChannel failures) :
    offer.channel = .decimator ∧ offer.subChannel = iSubChannel := by
  rw [decimatorOffers, List.mem_append] at h
  cases h with
  | inl h =>
      rw [List.eq_of_mem_replicate h]
      exact ⟨rfl, rfl⟩
  | inr h =>
      rw [List.mem_singleton.mp h]
      exact ⟨rfl, rfl⟩

/-- The offers to one sub-channel among those to several. -/
theorem filter_decimatorOffers (failures : Nat → Nat) {is : List Nat} (hnodup : is.Nodup) {i : Nat}
    (hi : i ∈ is) :
    (is.flatMap fun j => decimatorOffers outParts j (failures j)).filter
        (fun offer => offer.channel = .decimator ∧ offer.subChannel = i) =
      decimatorOffers outParts i (failures i) := by
  have hblock : ∀ j, (decimatorOffers outParts j (failures j)).filter
      (fun offer => offer.channel = .decimator ∧ offer.subChannel = i) =
        if j = i then decimatorOffers outParts j (failures j) else [] := by
    intro j
    by_cases hj : j = i
    · rw [if_pos hj, List.filter_eq_self]
      intro offer hoffer
      have hmem := mem_decimatorOffers outParts hoffer
      simp [hmem.1, hmem.2, hj]
    · rw [if_neg hj, List.filter_eq_nil_iff]
      intro offer hoffer
      have hmem := mem_decimatorOffers outParts hoffer
      simp [hmem.2, hj]
  induction is with
  | nil => cases hi
  | cons j is ih =>
      rw [List.flatMap_cons, List.filter_append, hblock j]
      rw [List.nodup_cons] at hnodup
      by_cases hj : j = i
      · have hnil : (is.flatMap fun j => decimatorOffers outParts j (failures j)).filter
            (fun offer => offer.channel = .decimator ∧ offer.subChannel = i) = [] := by
          rw [List.filter_eq_nil_iff]
          intro offer hoffer
          obtain ⟨j', hj', hmem⟩ := List.mem_flatMap.mp hoffer
          have hsub := (mem_decimatorOffers outParts hmem).2
          have hne : j' ≠ i := fun heq => hnodup.1 (by rw [hj, ← heq]; exact hj')
          simp [hsub, hne]
        rw [if_pos hj, hnil, List.append_nil, hj]
      · have hmem : i ∈ is := (List.mem_cons.mp hi).resolve_left fun heq => hj heq.symm
        rw [if_neg hj, List.nil_append, ih hnodup.2 hmem]

end Offers

theorem sendDecimated_moved {cfg : Config} {t : Transport} {outParts : List Bytes}
    {fNumSend : BitVec 64} (hwarn : t.warn = true) (hdecimated : Decimated cfg fNumSend) {i : Nat}
    (hi : i < cfg.decimatorNumSubChannels) (hfail : t.decimatorFailures i ≠ 0) :
    sendDecimated cfg t none outParts fNumSend = .error .undefined := by
  rw [sendDecimated, if_pos hdecimated, decimatorLoops_moved hwarn (List.mem_range.mpr hi) hfail]

theorem sendDecimated_ok {cfg : Config} {t : Transport} (h : UniquePtr TimeFrame.Header)
    (outParts : List Bytes) {fNumSend : BitVec 64}
    (hok : Decimated cfg fNumSend → ∀ i < cfg.decimatorNumSubChannels,
      t.warn = false ∨ t.decimatorFailures i = 0) :
    sendDecimated cfg t h outParts fNumSend = .ok (if Decimated cfg fNumSend then
      (List.range cfg.decimatorNumSubChannels).flatMap
        fun i => decimatorOffers outParts i (t.decimatorFailures i) else []) := by
  rw [sendDecimated]
  by_cases hdecimated : Decimated cfg fNumSend
  · rw [if_pos hdecimated, if_pos hdecimated,
      decimatorLoops_ok h _ fun i hi => hok hdecimated i (List.mem_range.mp hi)]
  · rw [if_neg hdecimated, if_neg hdecimated]

/-- The header has been moved into its message when the loops begin. -/
theorem sendFrame_eq (cfg : Config) (t : Transport) (s : Sender) (stfId : BitVec 32)
    (tfBuf : List STFBuffer) :
    sendFrame cfg t s stfId tfBuf = do
      let decimatorOffers ← sendDecimated cfg t none (frameParts cfg stfId tfBuf) s.fNumSend
      let (outputOffers, fDirection) ← outputLoop t.warn none (frameParts cfg stfId tfBuf)
        s.fNumDestination s.fDirection t.rounds
      return ({ s with fNumSend := s.fNumSend + 1, fDirection },
        decimatorOffers ++ (if cfg.dqmSocketExists then
          [⟨.dqm, 0, tfBuf.flatMap fun stfBuf => stfBuf.arrival.parts, t.dqm⟩] else []) ++
        outputOffers) := rfl

theorem noFailure_of_ok {cfg : Config} {t : Transport} {s : Sender} {stfId : BitVec 32}
    {tfBuf : List STFBuffer} {result : Sender × List Offer}
    (h : sendFrame cfg t s stfId tfBuf = .ok result) (hwarn : t.warn = true) :
    NoFailure cfg t s := by
  rw [sendFrame_eq] at h
  constructor
  · intro hfail
    rw [hwarn, outputLoop_moved _ _ hfail] at h
    cases hearly : sendDecimated cfg t none (frameParts cfg stfId tfBuf) s.fNumSend with
    | error fault =>
        rw [hearly] at h
        cases h
    | ok offers =>
        rw [hearly] at h
        cases h
  · intro hdecimated i hi
    apply Classical.byContradiction
    intro hfail
    rw [sendDecimated_moved hwarn hdecimated hi hfail] at h
    cases h

/-- The calls of `Send` of a time frame that gets through. -/
theorem sendFrame_ok {cfg : Config} {t : Transport} {s : Sender} (stfId : BitVec 32)
    (tfBuf : List STFBuffer) (h : t.warn = true → NoFailure cfg t s) :
    ∃ fDirection dqmOffers late,
      sendFrame cfg t s stfId tfBuf = .ok ({ s with fNumSend := s.fNumSend + 1, fDirection },
        (if Decimated cfg s.fNumSend then (List.range cfg.decimatorNumSubChannels).flatMap
          fun i => decimatorOffers (frameParts cfg stfId tfBuf) i (t.decimatorFailures i)
          else []) ++ dqmOffers ++ late) ∧
      (∀ offer ∈ dqmOffers, offer.channel = .dqm) ∧
      (∀ offer ∈ late, offer.channel = .output) ∧
      Retried (frameParts cfg stfId tfBuf) (t.rounds.count .failed) late := by
  have hrounds : t.warn = false ∨ .failed ∉ t.rounds := by
    cases hwarn : t.warn with
    | false => exact Or.inl rfl
    | true => exact Or.inr (h hwarn).1
  have hdecimator : Decimated cfg s.fNumSend → ∀ i < cfg.decimatorNumSubChannels,
      t.warn = false ∨ t.decimatorFailures i = 0 := by
    intro hdecimated i hi
    cases hwarn : t.warn with
    | false => exact Or.inl rfl
    | true => exact Or.inr ((h hwarn).2 hdecimated i hi)
  obtain ⟨late, fDirection, hlate, hretried, hchannel⟩ :=
    @outputLoop_ok t.warn (frameParts cfg stfId tfBuf) none s.fNumDestination s.fDirection t.rounds
      hrounds
  refine ⟨fDirection, if cfg.dqmSocketExists then
    [⟨.dqm, 0, tfBuf.flatMap fun stfBuf => stfBuf.arrival.parts, t.dqm⟩] else [], late,
    ?_, ?_, hchannel, hretried⟩
  · rw [sendFrame_eq, sendDecimated_ok none _ hdecimator, hlate]
    rfl
  · intro offer hoffer
    split at hoffer
    · rw [List.mem_singleton.mp hoffer]
    · cases hoffer

theorem filter_of_channel_ne {p : Offer → Bool} {offers : List Offer} {channel : Channel}
    (h : ∀ offer ∈ offers, offer.channel = channel)
    (hp : ∀ offer : Offer, offer.channel = channel → p offer = false) : offers.filter p = [] := by
  rw [List.filter_eq_nil_iff]
  intro offer hoffer
  simp [hp offer (h offer hoffer)]

theorem delivered_of {cfg : Config} {t : Transport} {s : Sender} (stfId : BitVec 32)
    (tfBuf : List STFBuffer) (h : t.warn = true → NoFailure cfg t s) :
    Delivered cfg t s stfId tfBuf := by
  obtain ⟨fDirection, dqmOffers, late, hok, hdqm, hlate, hretried⟩ := sendFrame_ok stfId tfBuf h
  refine ⟨_, _, hok, ?_, fun hdecimated i hi => ?_, rfl⟩
  · have hearly : ∀ offer ∈ (if Decimated cfg s.fNumSend then
        (List.range cfg.decimatorNumSubChannels).flatMap
          fun i => decimatorOffers (frameParts cfg stfId tfBuf) i (t.decimatorFailures i)
        else []), offer.channel = .decimator := by
      intro offer hoffer
      split at hoffer
      · obtain ⟨_, _, hmem⟩ := List.mem_flatMap.mp hoffer
        exact (mem_decimatorOffers _ hmem).1
      · cases hoffer
    have hall : late.filter (·.channel = .output) = late := by
      rw [List.filter_eq_self]
      intro offer hoffer
      simp [hlate offer hoffer]
    rw [List.filter_append, List.filter_append, hall,
      filter_of_channel_ne hearly (by intro offer hoffer; simp [hoffer]),
      filter_of_channel_ne hdqm (by intro offer hoffer; simp [hoffer])]
    exact hretried
  · rw [if_pos hdecimated, List.filter_append, List.filter_append,
      filter_decimatorOffers _ t.decimatorFailures List.nodup_range (List.mem_range.mpr hi),
      filter_of_channel_ne hdqm (by intro offer hoffer; simp [hoffer]),
      filter_of_channel_ne hlate (by intro offer hoffer; simp [hoffer]), List.append_nil,
      List.append_nil]
    exact retried_decimatorOffers _ i _

/-- Failed sends are harmless exactly when there are none, or when the logger does
not ask for the text of the warning. -/
theorem delivered_iff (cfg : Config) (t : Transport) (s : Sender) (stfId : BitVec 32)
    (tfBuf : List STFBuffer) :
    Delivered cfg t s stfId tfBuf ↔ (t.warn = true → NoFailure cfg t s) := by
  refine ⟨fun h hwarn => ?_, fun h => delivered_of stfId tfBuf h⟩
  obtain ⟨_, _, hok, _⟩ := h
  exact noFailure_of_ok hok hwarn

/-- A frame of one source whose first send to the output channel fails. -/
theorem not_delivered_after_failure :
    ¬Delivered { fNumSource := 1 } { rounds := [.failed] } {} 0x10
      [⟨⟨0, [({} : SubTimeFrame.Header).encode, List.replicate 16 0]⟩, 0⟩] := by
  intro h
  obtain ⟨s', offers, hok, _⟩ := h
  cases hok

theorem accepted_decimatorOffers (outParts : List Bytes) (i failures : Nat) :
    ((decimatorOffers outParts i failures).filter
      fun offer => offer.accepted ∧ offer.channel = .decimator).map (·.parts) = [outParts] := by
  have hrefused : (List.replicate failures (⟨.decimator, i, outParts, false⟩ : Offer)).filter
      (fun offer => offer.accepted ∧ offer.channel = .decimator) = [] := by
    rw [List.filter_eq_nil_iff]
    intro offer hoffer
    rw [List.eq_of_mem_replicate hoffer]
    simp
  rw [decimatorOffers, List.filter_append, hrefused]
  rfl

/-- What the channels take from the loops is what `send` records. -/
theorem send_records_sendFrame {cfg : Config} {t : Transport} {s s' : Sender} {stfId : BitVec 32}
    {tfBuf : List STFBuffer} {offers : List Offer} (state : State)
    (hnum : state.fNumSend = s.fNumSend)
    (h : sendFrame cfg t s stfId tfBuf = .ok (s', offers)) :
    (send cfg state stfId tfBuf).fNumSend = s'.fNumSend ∧
      (send cfg state stfId tfBuf).events =
        state.events ++ [.sent stfId tfBuf (frameParts cfg stfId tfBuf)
          (if cfg.dqmSocketExists then some (tfBuf.flatMap fun stfBuf => stfBuf.arrival.parts)
            else none)
          ((offers.filter fun offer => offer.accepted ∧ offer.channel = .decimator).map
            (·.parts))] := by
  obtain ⟨fDirection, dqmOffers, late, hok, hdqm, hlate, -⟩ :=
    sendFrame_ok stfId tfBuf fun hwarn => noFailure_of_ok h hwarn
  rw [h, Except.ok.injEq, Prod.mk.injEq] at hok
  obtain ⟨rfl, rfl⟩ := hok
  refine ⟨congrArg (· + 1) hnum, ?_⟩
  have hparts : ∀ is : List Nat, ((is.flatMap fun i =>
      decimatorOffers (frameParts cfg stfId tfBuf) i (t.decimatorFailures i)).filter
        fun offer => offer.accepted ∧ offer.channel = .decimator).map (·.parts) =
      List.replicate is.length (frameParts cfg stfId tfBuf) := by
    intro is
    induction is with
    | nil => rfl
    | cons i is ih =>
        rw [List.flatMap_cons, List.filter_append, List.map_append, accepted_decimatorOffers, ih]
        rfl
  rw [List.filter_append, List.filter_append,
    filter_of_channel_ne hdqm (by intro offer hoffer; simp [hoffer]),
    filter_of_channel_ne hlate (by intro offer hoffer; simp [hoffer]), List.append_nil,
    List.append_nil]
  have hsend : (send cfg state stfId tfBuf).events =
      state.events ++ [.sent stfId tfBuf (frameParts cfg stfId tfBuf)
        (if cfg.dqmSocketExists then some (tfBuf.flatMap fun stfBuf => stfBuf.arrival.parts)
          else none)
        (if Decimated cfg state.fNumSend then
          List.replicate cfg.decimatorNumSubChannels (frameParts cfg stfId tfBuf) else [])] := rfl
  rw [hsend, hnum]
  by_cases hdecimated : Decimated cfg s.fNumSend
  · rw [if_pos hdecimated, if_pos hdecimated, hparts, List.length_range]
  · rw [if_neg hdecimated, if_neg hdecimated]
    rfl

end TimeFrameBuilder
end Userworks
