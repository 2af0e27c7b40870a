import Userworks.Elph2018.TimeFrameBuilder
import Userworks.Exam6.TimeFrameDelivery
import Userworks.Lib.Collecting

/-!
What becomes of the sub time frames in the builder of the 2018 tests. Each time frame
number is a collector of its own: whatever else comes, and in whatever order the buffer
is gone through, the sub time frames of a number are sent in groups of the number of
sources, until an incomplete group is discarded, after which none is taken any more.
-/
namespace Userworks
namespace Elph2018
namespace TimeFrameBuilder

open Userworks.TimeFrameBuilder (STFBuffer TFBuffer Input emplaceBack frameLength arrivals
  entryOf entryOf_of_mem entryOf_of_not_mem entryOf_perm entryOf_append entryOf_cons
  entryOf_emplaceBack nodup_keys_emplaceBack mem_keys_emplaceBack receivedBy)

def Event.stfId : Event → BitVec 32
  | .sent stfId _ _ => stfId
  | .discarded stfId _ _ => stfId
  | .refused a => timeFrameId a

def Event.fate : Event → Fate Arrival
  | .sent _ tfBuf _ => .delivered (arrivals tfBuf)
  | .discarded _ tfBuf _ => .givenUp (arrivals tfBuf)
  | .refused a => .dropped a

/-- What the builder holds and has done for a number. -/
def view (stfId : BitVec 32) (s : State) : Collector Arrival where
  group := arrivals (entryOf stfId s.fTFBuffer)
  fates := (s.events.filter fun event => event.stfId = stfId).map Event.fate
  closed := s.fDiscarded.contains stfId

/-- What a history entry says about the time frame it is about. -/
def Event.Correct (cfg : Config) (clock : Nat → Int) : Event → Prop
  | .sent stfId tfBuf parts => ∃ header : TF.Header,
      parts = header.encode :: ((arrivals tfBuf).flatMap fun a => a.parts) ∧
        header.magic = TF.Magic ∧ header.timeFrameId = stfId ∧
        header.numSource = BitVec.ofNat 32 cfg.fNumSource ∧ header.length = frameLength tfBuf
  | .discarded _ tfBuf now => ∃ front rest before tick, tfBuf = front :: rest ∧
      front.start = clock before ∧ now = clock tick ∧ before < tick ∧
      cfg.fBufferTimeoutInMs < (now - front.start).tdiv 1000000
  | .refused _ => True

variable {cfg : Config} {clock : Nat → Int} {stfId : BitVec 32}

/-! ### One round -/

/-- What a round of the loop can do. -/
theorem visit_cases {s s' : State} {key : BitVec 32} {tfBuf : List STFBuffer}
    (h : visit cfg clock s (key, tfBuf) = .ok s') :
    (tfBuf.length = cfg.fNumSource ∧
      s' = { s with events := s.events ++ [.sent key tfBuf (outParts cfg key tfBuf)] }) ∨
      (tfBuf.length ≠ cfg.fNumSource ∧ ∃ front rest, tfBuf = front :: rest ∧
        ((cfg.fBufferTimeoutInMs < (clock s.ticks - front.start).tdiv 1000000 ∧
          s' = { s with
            ticks := s.ticks + 1
            fDiscarded := key :: s.fDiscarded
            events := s.events ++ [.discarded key tfBuf (clock s.ticks)] }) ∨
        s' = { s with ticks := s.ticks + 1, fTFBuffer := s.fTFBuffer ++ [(key, tfBuf)] })) := by
  simp only [visit] at h
  by_cases hfull : tfBuf.length = cfg.fNumSource
  · rw [if_pos hfull] at h
    exact Or.inl ⟨hfull, (Except.ok.inj h).symm⟩
  · rw [if_neg hfull] at h
    cases tfBuf with
    | nil => cases h
    | cons front rest =>
        refine Or.inr ⟨hfull, front, rest, rfl, ?_⟩
        dsimp only at h
        split at h
        · rename_i hold
          exact Or.inl ⟨hold, (Except.ok.inj h).symm⟩
        · exact Or.inr (Except.ok.inj h).symm

theorem exists_visit_eq (cfg : Config) (clock : Nat → Int) (s : State)
    {entry : BitVec 32 × List STFBuffer} (h : entry.2 ≠ []) :
    ∃ s', visit cfg clock s entry = .ok s' := by
  obtain ⟨key, tfBuf⟩ := entry
  obtain ⟨front, rest, rfl⟩ := List.exists_cons_of_ne_nil h
  simp only [visit]
  split
  · exact ⟨_, rfl⟩
  · split <;> exact ⟨_, rfl⟩

theorem fates_snoc (events : List Event) (event : Event) :
    ((events ++ [event]).filter fun e => e.stfId = stfId).map Event.fate =
      (events.filter fun e => e.stfId = stfId).map Event.fate ++
        if event.stfId = stfId then [event.fate] else [] := by
  by_cases hid : event.stfId = stfId
  · simp [List.filter_append, hid]
  · simp [List.filter_append, hid]

/-- The round of another number. -/
theorem view_visit_other {s s' : State} {key : BitVec 32} {tfBuf : List STFBuffer}
    (hkey : key ≠ stfId) (h : visit cfg clock s (key, tfBuf) = .ok s') :
    view stfId s' = view stfId s := by
  obtain ⟨-, rfl⟩ | ⟨-, front, rest, -, ⟨-, rfl⟩ | rfl⟩ := visit_cases h
  · rw [view, fates_snoc, if_neg (show ¬ Event.stfId (.sent key tfBuf _) = stfId from hkey),
      List.append_nil]
    rfl
  · rw [view, fates_snoc,
      if_neg (show ¬ Event.stfId (.discarded key tfBuf _) = stfId from hkey), List.append_nil]
    simp [view, Ne.symm hkey]
  · rw [view, entryOf_append, entryOf_cons, if_neg hkey]
    simp [view, entryOf]

/-- The round of the number itself. -/
theorem look_of_visit {s s' : State} {tfBuf : List STFBuffer}
    (hnone : entryOf stfId s.fTFBuffer = []) (h : visit cfg clock s (stfId, tfBuf) = .ok s') :
    Collector.Look cfg.fNumSource { view stfId s with group := arrivals tfBuf }
      (view stfId s') := by
  have hlength : (arrivals tfBuf).length = tfBuf.length := List.length_map _
  obtain ⟨hfull, rfl⟩ | ⟨hshort, front, rest, heq, ⟨-, rfl⟩ | rfl⟩ := visit_cases h
  · have hview : view stfId { s with
        events := s.events ++ [.sent stfId tfBuf (outParts cfg stfId tfBuf)] } =
        { view stfId s with
          group := []
          fates := (view stfId s).fates ++ [.delivered (arrivals tfBuf)] } := by
      rw [view, fates_snoc, if_pos (show Event.stfId (.sent stfId tfBuf _) = stfId from rfl)]
      simp [view, hnone, arrivals, Event.fate]
    rw [hview]
    exact .delivered (hlength.trans hfull)
  · have hview : view stfId { s with
        ticks := s.ticks + 1
        fDiscarded := stfId :: s.fDiscarded
        events := s.events ++ [.discarded stfId tfBuf (clock s.ticks)] } =
        { group := []
          fates := (view stfId s).fates ++ [.givenUp (arrivals tfBuf)]
          closed := true } := by
      rw [view, fates_snoc,
        if_pos (show Event.stfId (.discarded stfId tfBuf _) = stfId from rfl)]
      simp [view, hnone, arrivals, Event.fate]
    rw [hview]
    refine .givenUp (fun hfull => hshort (hlength.symm.trans hfull)) ?_
    rw [heq]
    exact List.cons_ne_nil _ _
  · have hview : view stfId { s with
        ticks := s.ticks + 1, fTFBuffer := s.fTFBuffer ++ [(stfId, tfBuf)] } =
        { view stfId s with group := arrivals tfBuf } := by
      rw [view, entryOf_append, hnone]
      simp [view, entryOf]
    rw [hview]
    exact .kept fun hfull => hshort (hlength.symm.trans hfull)

/-- The loop over the whole buffer, in whatever order. -/
theorem look_of_loop (hsource : 1 ≤ cfg.fNumSource) {s s' : State}
    (hkeys : (s.fTFBuffer.map Prod.fst).Nodup) (input : Input)
    (h : (input.rehash s.fTFBuffer).foldlM (visit cfg clock) { s with fTFBuffer := [] } =
      .ok s') :
    Collector.Look cfg.fNumSource (view stfId s) (view stfId s') := by
  have hperm := input.rehash_perm s.fTFBuffer
  have hkeys' := (hperm.map Prod.fst).nodup_iff.mpr hkeys
  have hentry : entryOf stfId (input.rehash s.fTFBuffer) = entryOf stfId s.fTFBuffer :=
    entryOf_perm hperm hkeys
  cases foldlM_view (fun _ _ _ _ => view_visit_other) hkeys' h with
  | inl hnone =>
      have hempty : entryOf stfId s.fTFBuffer = [] := hentry ▸ entryOf_of_not_mem hnone.1
      have hview : view stfId s' = view stfId s := by
        rw [hnone.2, view, view, hempty]
        rfl
      rw [hview]
      refine .kept ?_
      rw [view, hempty]
      exact Nat.ne_of_lt hsource
  | inr hround =>
      obtain ⟨tfBuf, s₁, s₂, hmem, hvisit, hbefore, hafter⟩ := hround
      have hown : entryOf stfId s.fTFBuffer = tfBuf := hentry ▸ entryOf_of_mem hkeys' hmem
      have hnone : entryOf stfId s₁.fTFBuffer = [] :=
        List.map_eq_nil_iff.mp (congrArg Collector.group hbefore)
      have hlook := look_of_visit hnone hvisit
      rw [hbefore, ← hown] at hlook
      rw [hafter]
      exact hlook

/-! ### One call -/

/-- The two parts of a sub time frame that the builder relies on. -/
def Formed (a : Arrival) : Prop := 2 ≤ a.parts.length ∧ STF.Header.size ≤ (a.parts.headD []).length

theorem receive_cases {s s' : State} {a : Arrival} (h : receive clock s a = .ok s') :
    (timeFrameId a ∈ s.fDiscarded ∧ s' = { s with events := s.events ++ [.refused a] }) ∨
      (timeFrameId a ∉ s.fDiscarded ∧ s' = { s with
        fTFBuffer := emplaceBack (timeFrameId a) ⟨a, clock s.ticks⟩ s.fTFBuffer
        ticks := s.ticks + 1 }) := by
  rw [receive] at h
  split at h
  · cases h
  · split at h
    · cases h
    · split at h
      · rename_i hclosed
        exact Or.inl ⟨hclosed, (Except.ok.inj h).symm⟩
      · rename_i hopen
        exact Or.inr ⟨hopen, (Except.ok.inj h).symm⟩

/-- The sub time frames of a number. -/
def ofNumber (stfId : BitVec 32) (received : List Arrival) : List Arrival :=
  received.filter fun a => timeFrameId a = stfId

theorem view_receive_other {s s' : State} (hkeys : (s.fTFBuffer.map Prod.fst).Nodup) {a : Arrival}
    (hid : timeFrameId a ≠ stfId) (h : receive clock s a = .ok s') :
    view stfId s' = view stfId s := by
  obtain ⟨-, rfl⟩ | ⟨-, rfl⟩ := receive_cases h
  · rw [view, fates_snoc, if_neg (show ¬ Event.stfId (.refused a) = stfId from hid),
      List.append_nil]
    rfl
  · rw [view, entryOf_emplaceBack hkeys, if_neg hid, List.append_nil]
    rfl

theorem view_receive_own {s s' : State} (hkeys : (s.fTFBuffer.map Prod.fst).Nodup) {a : Arrival}
    (hid : timeFrameId a = stfId) (h : receive clock s a = .ok s') :
    ((view stfId s).closed = true ∧
      view stfId s' =
        { view stfId s with fates := (view stfId s).fates ++ [.dropped a] }) ∨
      ((view stfId s).closed = false ∧
        view stfId s' = { view stfId s with group := (view stfId s).group ++ [a] }) := by
  obtain ⟨hclosed, rfl⟩ | ⟨hopen, rfl⟩ := receive_cases h
  · refine Or.inl ⟨List.contains_iff_mem.mpr (hid ▸ hclosed), ?_⟩
    rw [view, fates_snoc, if_pos (show Event.stfId (.refused a) = stfId from hid)]
    rfl
  · have hfree : s.fDiscarded.contains stfId = false := by
      rw [← Bool.not_eq_true, List.contains_iff_mem]
      exact hid ▸ hopen
    refine Or.inr ⟨hfree, ?_⟩
    rw [view, entryOf_emplaceBack hkeys, if_pos hid]
    simp [view, arrivals]

/-- A call is a step of the collector of every number. -/
theorem step_conditionalRun (hsource : 1 ≤ cfg.fNumSource) {s s' : State}
    (hkeys : (s.fTFBuffer.map Prod.fst).Nodup) {input : Input} {received : List Arrival}
    (hsettled : Collector.Settled cfg.fNumSource received (view stfId s))
    (h : conditionalRun cfg clock s input = .ok s') :
    Collector.Step cfg.fNumSource (view stfId s) (ofNumber stfId input.received.toList)
      (view stfId s') := by
  obtain ⟨hroom, hclosed⟩ := hsettled.room hsource
  rw [conditionalRun] at h
  cases hreceived : input.received with
  | none =>
      rw [hreceived] at h
      exact (look_of_loop hsource hkeys input h).idle hroom hclosed
  | some a =>
      rw [hreceived] at h
      obtain ⟨s₁, hreceive, hloop⟩ := ok_of_bind h
      have hkeys₁ : (s₁.fTFBuffer.map Prod.fst).Nodup := by
        obtain ⟨-, rfl⟩ | ⟨-, rfl⟩ := receive_cases hreceive
        · exact hkeys
        · exact nodup_keys_emplaceBack hkeys
      have hlook := @look_of_loop cfg clock stfId hsource s₁ s' hkeys₁ input hloop
      by_cases hid : timeFrameId a = stfId
      · have hown : ofNumber stfId (some a).toList = [a] := by simp [ofNumber, hid]
        rw [hown]
        cases view_receive_own hkeys hid hreceive with
        | inl hdropped =>
            rw [hdropped.2] at hlook
            exact hlook.drop hroom hdropped.1 (hclosed hdropped.1)
        | inr hjoined =>
            rw [hjoined.2] at hlook
            exact hlook.join hroom hjoined.1
      · have hown : ofNumber stfId (some a).toList = [] := by simp [ofNumber, hid]
        rw [view_receive_other hkeys hid hreceive] at hlook
        rw [hown]
        exact hlook.idle hroom hclosed

/-! ### Runs -/

/-- A buffered sub time frame came at an earlier reading of the clock. -/
def Waiting (clock : Nat → Int) (ticks : Nat) (tfBuf : List STFBuffer) : Prop :=
  tfBuf ≠ [] ∧ ∀ b ∈ tfBuf, ∃ before, before < ticks ∧ b.start = clock before

structure Sound (cfg : Config) (clock : Nat → Int) (s : State) : Prop where
  keys : (s.fTFBuffer.map Prod.fst).Nodup
  entries : ∀ entry ∈ s.fTFBuffer, Waiting clock s.ticks entry.2
  events : ∀ event ∈ s.events, event.Correct cfg clock

theorem Waiting.mono {ticks ticks' : Nat} {tfBuf : List STFBuffer} (hticks : ticks ≤ ticks')
    (h : Waiting clock ticks tfBuf) : Waiting clock ticks' tfBuf := by
  refine ⟨h.1, fun b hb => ?_⟩
  obtain ⟨before, hbefore, hstart⟩ := h.2 b hb
  exact ⟨before, Nat.lt_of_lt_of_le hbefore hticks, hstart⟩

theorem correct_snoc {events : List Event} {event : Event}
    (h : ∀ e ∈ events, e.Correct cfg clock) (hevent : event.Correct cfg clock) :
    ∀ e ∈ events ++ [event], e.Correct cfg clock := by
  intro e he
  cases List.mem_append.mp he with
  | inl he => exact h e he
  | inr he =>
      rw [List.mem_singleton.mp he]
      exact hevent

theorem outParts_correct (cfg : Config) (clock : Nat → Int) (key : BitVec 32)
    (tfBuf : List STFBuffer) :
    (Event.sent key tfBuf (outParts cfg key tfBuf)).Correct cfg clock := by
  refine ⟨frameHeader cfg key tfBuf, ?_, rfl, rfl, rfl, rfl⟩
  rw [outParts, arrivals, List.flatMap_map]

/-- One round, with the entries still to come. -/
theorem Sound.visit {s : State} {entry : BitVec 32 × List STFBuffer} {table : TFBuffer}
    (h : Sound cfg clock { s with fTFBuffer := s.fTFBuffer ++ entry :: table }) :
    ∃ s', visit cfg clock s entry = .ok s' ∧
      Sound cfg clock { s' with fTFBuffer := s'.fTFBuffer ++ table } := by
  obtain ⟨key, tfBuf⟩ := entry
  have hwaiting := h.entries (key, tfBuf) (List.mem_append_right _ List.mem_cons_self)
  obtain ⟨s', hvisit⟩ := @exists_visit_eq cfg clock s (key, tfBuf) hwaiting.1
  have hsub : (s.fTFBuffer ++ table).Sublist (s.fTFBuffer ++ (key, tfBuf) :: table) :=
    (List.sublist_cons_self _ _).append_left _
  have hkeys := h.keys.sublist (hsub.map Prod.fst)
  refine ⟨s', hvisit, ?_⟩
  obtain ⟨-, rfl⟩ | ⟨-, front, rest, rfl, ⟨hold, rfl⟩ | rfl⟩ := visit_cases hvisit
  · exact ⟨hkeys, fun entry hentry => h.entries entry (hsub.subset hentry),
      correct_snoc h.events (outParts_correct cfg clock key tfBuf)⟩
  · obtain ⟨before, hbefore, hstart⟩ := hwaiting.2 front List.mem_cons_self
    exact ⟨hkeys, fun entry hentry => (h.entries entry (hsub.subset hentry)).mono (Nat.le_succ _),
      correct_snoc h.events ⟨front, rest, before, s.ticks, rfl, hstart, rfl, hbefore, hold⟩⟩
  · have heq : s.fTFBuffer ++ [(key, front :: rest)] ++ table =
        s.fTFBuffer ++ (key, front :: rest) :: table := List.append_cons _ _ _ |>.symm
    refine ⟨?_, ?_, h.events⟩
    · dsimp only
      rw [heq]
      exact h.keys
    · dsimp only
      rw [heq]
      exact fun entry hentry => (h.entries entry hentry).mono (Nat.le_succ _)

theorem Sound.loop {s : State} {table : TFBuffer}
    (h : Sound cfg clock { s with fTFBuffer := s.fTFBuffer ++ table }) :
    ∃ s', table.foldlM (TimeFrameBuilder.visit cfg clock) s = .ok s' ∧ Sound cfg clock s' := by
  induction table generalizing s with
  | nil =>
      rw [List.append_nil] at h
      exact ⟨s, rfl, h⟩
  | cons entry table ih =>
      obtain ⟨s₁, hvisit, hsound₁⟩ := h.visit
      obtain ⟨s', hloop, hsound⟩ := ih hsound₁
      refine ⟨s', ?_, hsound⟩
      rw [List.foldlM_cons, hvisit]
      exact hloop

theorem waiting_emplaceBack {ticks ticks' : Nat} {key : BitVec 32} {stfBuf : STFBuffer}
    {table : TFBuffer} (h : ∀ entry ∈ table, Waiting clock ticks entry.2) (hticks : ticks ≤ ticks')
    (hstart : ∃ before, before < ticks' ∧ stfBuf.start = clock before) :
    ∀ entry ∈ emplaceBack key stfBuf table, Waiting clock ticks' entry.2 := by
  induction table with
  | nil =>
      intro entry hentry
      rw [List.mem_singleton.mp hentry]
      refine ⟨List.cons_ne_nil _ _, fun b hb => ?_⟩
      rw [List.mem_singleton.mp hb]
      exact hstart
  | cons head table ih =>
      have htail : ∀ entry ∈ table, Waiting clock ticks entry.2 :=
        fun entry hentry => h entry (List.mem_cons_of_mem _ hentry)
      have hhead := (h head List.mem_cons_self).mono hticks
      rw [emplaceBack]
      split
      · intro entry hentry
        cases List.mem_cons.mp hentry with
        | inl hentry =>
            rw [hentry]
            refine ⟨List.append_ne_nil_of_left_ne_nil hhead.1 _, fun b hb => ?_⟩
            cases List.mem_append.mp hb with
            | inl hb => exact hhead.2 b hb
            | inr hb =>
                rw [List.mem_singleton.mp hb]
                exact hstart
        | inr hentry => exact (htail entry hentry).mono hticks
      · intro entry hentry
        cases List.mem_cons.mp hentry with
        | inl hentry =>
            rw [hentry]
            exact hhead
        | inr hentry => exact ih htail entry hentry

theorem Sound.receive {s : State} (h : Sound cfg clock s) {a : Arrival} (ha : Formed a) :
    ∃ s', receive clock s a = .ok s' ∧ Sound cfg clock s' := by
  rw [TimeFrameBuilder.receive, if_neg (Nat.not_lt.mpr ha.1), if_neg (Nat.not_lt.mpr ha.2)]
  split
  · exact ⟨_, rfl, h.keys, h.entries, correct_snoc h.events trivial⟩
  · refine ⟨_, rfl, nodup_keys_emplaceBack h.keys, ?_, h.events⟩
    refine waiting_emplaceBack h.entries (Nat.le_succ _) ⟨s.ticks, Nat.lt_succ_self _, rfl⟩

theorem Sound.conditionalRun {s : State} (h : Sound cfg clock s) {input : Input}
    (hformed : ∀ a ∈ input.received, Formed a) :
    ∃ s', conditionalRun cfg clock s input = .ok s' ∧ Sound cfg clock s' := by
  have hloop : ∀ s₁ : State, Sound cfg clock s₁ →
      ∃ s', (input.rehash s₁.fTFBuffer).foldlM (TimeFrameBuilder.visit cfg clock)
        { s₁ with fTFBuffer := [] } = .ok s' ∧ Sound cfg clock s' := by
    intro s₁ h₁
    have hperm := input.rehash_perm s₁.fTFBuffer
    exact @Sound.loop cfg clock { s₁ with fTFBuffer := [] } (input.rehash s₁.fTFBuffer)
      ⟨(hperm.map Prod.fst).nodup_iff.mpr h₁.keys,
        fun entry hentry => h₁.entries entry (hperm.mem_iff.mp hentry), h₁.events⟩
  rw [TimeFrameBuilder.conditionalRun]
  cases hreceived : input.received with
  | none => exact hloop s h
  | some a =>
      obtain ⟨s₁, hreceive, h₁⟩ := h.receive (hformed a hreceived)
      obtain ⟨s', hrun, hsound⟩ := hloop s₁ h₁
      refine ⟨s', ?_, hsound⟩
      simp only [hreceive]
      exact hrun

theorem Sound.run (hsource : 1 ≤ cfg.fNumSource) {s : State} (h : Sound cfg clock s)
    {received : List Arrival}
    (hsettled : ∀ stfId,
      Collector.Settled cfg.fNumSource (ofNumber stfId received) (view stfId s))
    {inputs : List Input} (hformed : ∀ a ∈ receivedBy inputs, Formed a) :
    ∃ s', run cfg clock s inputs = .ok s' ∧ Sound cfg clock s' ∧ ∀ stfId,
      Collector.Settled cfg.fNumSource (ofNumber stfId (received ++ receivedBy inputs))
        (view stfId s') := by
  induction inputs generalizing s received with
  | nil =>
      refine ⟨s, rfl, h, fun stfId => ?_⟩
      rw [show receivedBy [] = [] from rfl, List.append_nil]
      exact hsettled stfId
  | cons input inputs ih =>
      have hsplit : receivedBy (input :: inputs) = input.received.toList ++ receivedBy inputs := rfl
      rw [hsplit] at hformed ⊢
      obtain ⟨s₁, hcall, h₁⟩ := h.conditionalRun fun a ha =>
        hformed a (List.mem_append_left _ (Option.mem_toList.mpr ha))
      have hsettled₁ : ∀ stfId, Collector.Settled cfg.fNumSource
          (ofNumber stfId (received ++ input.received.toList)) (view stfId s₁) := by
        intro stfId
        rw [ofNumber, List.filter_append]
        exact (hsettled stfId).step hsource
          (step_conditionalRun hsource h.keys (hsettled stfId) hcall)
      obtain ⟨s', hrun, hsound, hfates⟩ := ih h₁ hsettled₁
        fun a ha => hformed a (List.mem_append_right _ ha)
      refine ⟨s', ?_, hsound, fun stfId => ?_⟩
      · rw [TimeFrameBuilder.run, List.foldlM_cons, hcall]
        exact hrun
      · rw [← List.append_assoc]
        exact hfates stfId

theorem sound_init (cfg : Config) (clock : Nat → Int) : Sound cfg clock {} where
  keys := List.nodup_nil
  entries := fun _ hentry => absurd hentry List.not_mem_nil
  events := fun _ hevent => absurd hevent List.not_mem_nil

theorem settled_init (hsource : 1 ≤ cfg.fNumSource) (stfId : BitVec 32) :
    Collector.Settled cfg.fNumSource (ofNumber stfId []) (view stfId {}) :=
  .collecting [] (fun _ h => absurd h List.not_mem_nil) rfl hsource rfl rfl

end TimeFrameBuilder
end Elph2018
end Userworks
