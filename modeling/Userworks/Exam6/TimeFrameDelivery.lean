import Userworks.Exam6.TimeFrameBuilding
import Userworks.Lib.Batches
import Userworks.Lib.Results

/-!
Delivery of time frames. What happens to the sub time frames of one number does not
depend on the others or on the order in which the buffer is gone through: a call sends
their entry, keeps it or discards it. As long as the timeout does not run out they are
sent in groups of the number of sources, each in the call that completes it.
-/
namespace Userworks
namespace TimeFrameBuilder

/-- The entry of a number, empty if there is none. -/
def entryOf (stfId : BitVec 32) (table : TFBuffer) : List STFBuffer :=
  table.flatMap fun entry => if entry.1 = stfId then entry.2 else []

def Event.stfId : Event → BitVec 32
  | .sent stfId _ _ _ _ => stfId
  | .discarded stfId _ _ => stfId

/-- What happened to the time frames of a number. -/
def State.history (s : State) (stfId : BitVec 32) : List Event :=
  s.events.filter fun event => event.stfId = stfId

/-- What a call may do to an entry. The clock is read at ticks from `first` up to `last`. -/
inductive Settled (cfg : Config) (clock : Nat → Int) (first last : Nat) (stfId : BitVec 32)
    (tfBuf : List STFBuffer) : List Event → List STFBuffer → Prop where
  | sent {outParts : List Bytes} {dqmParts : Option (List Bytes)}
      {decimatorParts : List (List Bytes)} : tfBuf.length = cfg.fNumSource →
      Settled cfg clock first last stfId tfBuf
        [.sent stfId tfBuf outParts dqmParts decimatorParts] []
  | kept : tfBuf.length ≠ cfg.fNumSource → Settled cfg clock first last stfId tfBuf [] tfBuf
  | discarded {tick : Nat} {front : STFBuffer} : tfBuf.length ≠ cfg.fNumSource →
      front ∈ tfBuf → first ≤ tick → tick < last →
      cfg.fBufferTimeoutInMs < (clock tick - front.start).tdiv 1000000 →
      Settled cfg clock first last stfId tfBuf [.discarded stfId tfBuf (clock tick)] []

variable {cfg : Config} {clock : Nat → Int} {stfId : BitVec 32}

theorem Settled.widen {first last first' last' : Nat} {tfBuf kept : List STFBuffer}
    {new : List Event} (hfirst : first' ≤ first) (hlast : last ≤ last')
    (h : Settled cfg clock first last stfId tfBuf new kept) :
    Settled cfg clock first' last' stfId tfBuf new kept := by
  cases h with
  | sent hfull => exact .sent hfull
  | kept hshort => exact .kept hshort
  | discarded hshort hfront hlow hhigh hold =>
      exact .discarded hshort hfront (hfirst.trans hlow) (Nat.lt_of_lt_of_le hhigh hlast) hold

/-! ### The entry of a number -/

@[simp] theorem entryOf_cons (entry : BitVec 32 × List STFBuffer) (table : TFBuffer) :
    entryOf stfId (entry :: table) =
      (if entry.1 = stfId then entry.2 else []) ++ entryOf stfId table := rfl

@[simp] theorem entryOf_append (table table' : TFBuffer) :
    entryOf stfId (table ++ table') = entryOf stfId table ++ entryOf stfId table' :=
  List.flatMap_append

theorem entryOf_of_not_mem {table : TFBuffer} (h : stfId ∉ table.map Prod.fst) :
    entryOf stfId table = [] := by
  rw [entryOf, List.flatMap_eq_nil_iff]
  intro entry hentry
  refine if_neg ?_
  rintro rfl
  exact h (List.mem_map_of_mem hentry)

theorem entryOf_of_mem {table : TFBuffer} (hkeys : (table.map Prod.fst).Nodup)
    {tfBuf : List STFBuffer} (h : (stfId, tfBuf) ∈ table) : entryOf stfId table = tfBuf := by
  obtain ⟨before, after, rfl⟩ := List.append_of_mem h
  rw [List.map_append, List.map_cons, List.nodup_middle, List.nodup_cons, List.mem_append,
    not_or] at hkeys
  rw [entryOf_append, entryOf_cons, entryOf_of_not_mem hkeys.1.1, entryOf_of_not_mem hkeys.1.2]
  simp

theorem entryOf_perm {table table' : TFBuffer} (hperm : table.Perm table')
    (hkeys : (table'.map Prod.fst).Nodup) : entryOf stfId table = entryOf stfId table' := by
  have hkeys' := (hperm.map Prod.fst).nodup_iff.mpr hkeys
  by_cases hmem : stfId ∈ table.map Prod.fst
  · obtain ⟨⟨key, tfBuf⟩, hentry, rfl⟩ := List.mem_map.mp hmem
    rw [entryOf_of_mem hkeys' hentry, entryOf_of_mem hkeys (hperm.mem_iff.mp hentry)]
  · rw [entryOf_of_not_mem hmem,
      entryOf_of_not_mem fun hmem' => hmem ((hperm.map Prod.fst).mem_iff.mpr hmem')]

theorem entryOf_emplaceBack {table : TFBuffer} (hkeys : (table.map Prod.fst).Nodup)
    (key : BitVec 32) (stfBuf : STFBuffer) :
    entryOf stfId (emplaceBack key stfBuf table) =
      entryOf stfId table ++ if key = stfId then [stfBuf] else [] := by
  induction table with
  | nil => simp [emplaceBack, entryOf]
  | cons entry table ih =>
      rw [List.map_cons, List.nodup_cons] at hkeys
      rw [emplaceBack]
      by_cases hkey : entry.1 = key
      · rw [if_pos hkey, entryOf_cons, entryOf_cons]
        by_cases hid : key = stfId
        · rw [entryOf_of_not_mem (hid ▸ hkey ▸ hkeys.1)]
          simp [hkey, hid]
        · simp [hkey, hid]
      · rw [if_neg hkey, entryOf_cons, entryOf_cons, ih hkeys.2, List.append_assoc]

/-! ### One call -/

theorem history_snoc (events : List Event) (event : Event) :
    ((events ++ [event]).filter fun e => e.stfId = stfId) =
      (events.filter fun e => e.stfId = stfId) ++ if event.stfId = stfId then [event] else [] := by
  by_cases hid : event.stfId = stfId
  · simp [List.filter_append, hid]
  · simp [List.filter_append, hid]

/-- What a round of the loop can do. -/
theorem visit_cases {s s' : State} {key : BitVec 32} {tfBuf : List STFBuffer}
    (h : visit cfg clock s (key, tfBuf) = .ok s') :
    (tfBuf.length = cfg.fNumSource ∧ s' = send cfg s key tfBuf) ∨
      (tfBuf.length ≠ cfg.fNumSource ∧ ∃ front ∈ tfBuf,
        (cfg.fBufferTimeoutInMs < (clock s.ticks - front.start).tdiv 1000000 ∧
          s' = { s with
            ticks := s.ticks + 1
            events := s.events ++ [.discarded key tfBuf (clock s.ticks)] }) ∨
        s' = { s with ticks := s.ticks + 1, fTFBuffer := s.fTFBuffer ++ [(key, tfBuf)] }) := by
  simp only [visit] at h
  by_cases hfull : tfBuf.length = cfg.fNumSource
  · rw [if_pos hfull] at h
    exact Or.inl ⟨hfull, (Except.ok.inj h).symm⟩
  · rw [if_neg hfull] at h
    cases tfBuf with
    | nil => cases h
    | cons front rest =>
        refine Or.inr ⟨hfull, front, List.mem_cons_self, ?_⟩
        dsimp only at h
        split at h
        · rename_i hold
          exact Or.inl ⟨hold, (Except.ok.inj h).symm⟩
        · exact Or.inr (Except.ok.inj h).symm

/-- The round of another number. -/
theorem visit_other {s s' : State} {key : BitVec 32} {tfBuf : List STFBuffer} (hkey : key ≠ stfId)
    (h : visit cfg clock s (key, tfBuf) = .ok s') :
    entryOf stfId s'.fTFBuffer = entryOf stfId s.fTFBuffer ∧
      s'.history stfId = s.history stfId ∧ s.ticks ≤ s'.ticks := by
  obtain ⟨-, rfl⟩ | ⟨-, front, -, ⟨-, rfl⟩ | rfl⟩ := visit_cases h
  · refine ⟨rfl, (history_snoc _ _).trans ?_, Nat.le_refl _⟩
    rw [Event.stfId, if_neg hkey]
    exact List.append_nil _
  · refine ⟨rfl, (history_snoc _ _).trans ?_, Nat.le_succ _⟩
    rw [Event.stfId, if_neg hkey]
    exact List.append_nil _
  · refine ⟨?_, rfl, Nat.le_succ _⟩
    rw [entryOf_append, entryOf_cons, if_neg hkey]
    exact List.append_nil _

/-- The round of the number itself. -/
theorem visit_own {s s' : State} {tfBuf : List STFBuffer} (hnone : entryOf stfId s.fTFBuffer = [])
    (h : visit cfg clock s (stfId, tfBuf) = .ok s') :
    ∃ new, s'.history stfId = s.history stfId ++ new ∧ s.ticks ≤ s'.ticks ∧
      Settled cfg clock s.ticks s'.ticks stfId tfBuf new (entryOf stfId s'.fTFBuffer) := by
  obtain ⟨hfull, rfl⟩ | ⟨hshort, front, hfront, ⟨hold, rfl⟩ | rfl⟩ := visit_cases h
  · refine ⟨_, (history_snoc _ _).trans (congrArg _ (if_pos rfl)), Nat.le_refl _, ?_⟩
    have hentry : entryOf stfId (send cfg s stfId tfBuf).fTFBuffer = [] := hnone
    rw [hentry]
    exact .sent hfull
  · refine ⟨_, (history_snoc _ _).trans (congrArg _ (if_pos rfl)), Nat.le_succ _, ?_⟩
    rw [hnone]
    exact .discarded hshort hfront (Nat.le_refl _) (Nat.lt_succ_self _) hold
  · refine ⟨[], (List.append_nil _).symm, Nat.le_succ _, ?_⟩
    have hentry : entryOf stfId (s.fTFBuffer ++ [(stfId, tfBuf)]) = tfBuf := by
      rw [entryOf_append, hnone, entryOf_cons, if_pos rfl]
      exact List.append_nil _
    rw [hentry]
    exact .kept hshort

theorem loop_other {s s' : State} {table : TFBuffer} (hkey : stfId ∉ table.map Prod.fst)
    (h : table.foldlM (visit cfg clock) s = .ok s') :
    entryOf stfId s'.fTFBuffer = entryOf stfId s.fTFBuffer ∧
      s'.history stfId = s.history stfId ∧ s.ticks ≤ s'.ticks := by
  induction table generalizing s with
  | nil =>
      cases h
      exact ⟨rfl, rfl, Nat.le_refl _⟩
  | cons entry table ih =>
      rw [List.map_cons, List.mem_cons, not_or] at hkey
      rw [List.foldlM_cons] at h
      obtain ⟨s₁, hvisit, hrest⟩ := ok_of_bind h
      obtain ⟨hentry₁, hhistory₁, hticks₁⟩ := visit_other (Ne.symm hkey.1) hvisit
      obtain ⟨hentry, hhistory, hticks⟩ := ih hkey.2 hrest
      exact ⟨hentry.trans hentry₁, hhistory.trans hhistory₁, hticks₁.trans hticks⟩

/-- The loop settles the entry of a number, wherever it comes. -/
theorem loop_settles (hsource : 1 ≤ cfg.fNumSource) {s s' : State} {table : TFBuffer}
    (hkeys : (table.map Prod.fst).Nodup) (hnone : entryOf stfId s.fTFBuffer = [])
    (h : table.foldlM (visit cfg clock) s = .ok s') :
    ∃ new, s'.history stfId = s.history stfId ++ new ∧ s.ticks ≤ s'.ticks ∧
      Settled cfg clock s.ticks s'.ticks stfId (entryOf stfId table) new
        (entryOf stfId s'.fTFBuffer) := by
  by_cases hmem : stfId ∈ table.map Prod.fst
  · obtain ⟨⟨key, tfBuf⟩, hentry, rfl⟩ := List.mem_map.mp hmem
    rw [entryOf_of_mem hkeys hentry]
    obtain ⟨before, after, rfl⟩ := List.append_of_mem hentry
    rw [List.map_append, List.map_cons, List.nodup_middle, List.nodup_cons, List.mem_append,
      not_or] at hkeys
    rw [List.foldlM_append] at h
    obtain ⟨s₁, hbefore, hrest⟩ := ok_of_bind h
    rw [List.foldlM_cons] at hrest
    obtain ⟨s₂, hvisit, hafter⟩ := ok_of_bind hrest
    obtain ⟨hentry₁, hhistory₁, hticks₁⟩ := loop_other hkeys.1.1 hbefore
    obtain ⟨new, hhistory₂, hticks₂, hsettled⟩ := visit_own (hentry₁.trans hnone) hvisit
    obtain ⟨hentry₃, hhistory₃, hticks₃⟩ := loop_other hkeys.1.2 hafter
    refine ⟨new, ?_, hticks₁.trans (hticks₂.trans hticks₃), ?_⟩
    · rw [hhistory₃, hhistory₂, hhistory₁]
    · rw [hentry₃]
      exact hsettled.widen hticks₁ hticks₃
  · obtain ⟨hentry, hhistory, hticks⟩ := loop_other hmem h
    refine ⟨[], by rw [hhistory, List.append_nil], hticks, ?_⟩
    rw [entryOf_of_not_mem hmem, hentry, hnone]
    exact .kept (by rw [List.length_nil]; omega)

/-- The sub time frame that joins the entry of a number. -/
def joining (clock : Nat → Int) (ticks : Nat) (stfId : BitVec 32) (received : Option Arrival) :
    List STFBuffer :=
  (received.toList.filter fun a => a.stfId = stfId).map fun a => ⟨a, clock ticks⟩

theorem receive_eq {s s' : State} {a : Arrival} (h : receive clock s a = .ok s') :
    s' = { s with
      fTFBuffer := emplaceBack a.stfId ⟨a, clock s.ticks⟩ s.fTFBuffer, ticks := s.ticks + 1 } := by
  rw [receive] at h
  split at h
  · cases h
  · split at h
    · cases h
    · exact (Except.ok.inj h).symm

theorem conditionalRun_settles (hsource : 1 ≤ cfg.fNumSource) {s s' : State}
    (hkeys : (s.fTFBuffer.map Prod.fst).Nodup) {input : Input}
    (h : conditionalRun cfg clock s input = .ok s') :
    ∃ new, s'.history stfId = s.history stfId ++ new ∧ s.ticks ≤ s'.ticks ∧
      Settled cfg clock s.ticks s'.ticks stfId
        (entryOf stfId s.fTFBuffer ++ joining clock s.ticks stfId input.received) new
        (entryOf stfId s'.fTFBuffer) := by
  have hloop : ∀ s₁ : State, (s₁.fTFBuffer.map Prod.fst).Nodup →
      s₁.history stfId = s.history stfId → s.ticks ≤ s₁.ticks →
      (input.rehash s₁.fTFBuffer).foldlM (visit cfg clock) { s₁ with fTFBuffer := [] } = .ok s' →
      ∃ new, s'.history stfId = s.history stfId ++ new ∧ s.ticks ≤ s'.ticks ∧
        Settled cfg clock s.ticks s'.ticks stfId (entryOf stfId s₁.fTFBuffer) new
          (entryOf stfId s'.fTFBuffer) := by
    intro s₁ hkeys₁ hhistory₁ hticks₁ hrun
    have hperm := input.rehash_perm s₁.fTFBuffer
    obtain ⟨new, hhistory, hticks, hsettled⟩ := loop_settles hsource
      ((hperm.map Prod.fst).nodup_iff.mpr hkeys₁) rfl hrun
    rw [entryOf_perm hperm hkeys₁] at hsettled
    exact ⟨new, hhistory.trans (congrArg (· ++ new) hhistory₁), hticks₁.trans hticks,
      hsettled.widen hticks₁ (Nat.le_refl _)⟩
  rw [conditionalRun] at h
  cases hreceived : input.received with
  | none =>
      rw [hreceived] at h
      rw [joining, Option.toList_none, List.filter_nil, List.map_nil, List.append_nil]
      exact hloop s hkeys rfl (Nat.le_refl _) h
  | some a =>
      rw [hreceived] at h
      obtain ⟨s₁, hreceive, hrun⟩ := ok_of_bind h
      obtain rfl := receive_eq hreceive
      have hsettles := hloop
        { s with
          fTFBuffer := emplaceBack a.stfId ⟨a, clock s.ticks⟩ s.fTFBuffer, ticks := s.ticks + 1 }
        (nodup_keys_emplaceBack hkeys) rfl (Nat.le_succ s.ticks) hrun
      rw [entryOf_emplaceBack hkeys] at hsettles
      have hjoining : joining clock s.ticks stfId (some a) =
          if a.stfId = stfId then [⟨a, clock s.ticks⟩] else [] := by
        by_cases hid : a.stfId = stfId
        · simp [joining, hid]
        · simp [joining, hid]
      rw [hjoining]
      exact hsettles

/-! ### Runs -/

/-- A group is complete with one sub time frame for each source. -/
def complete (cfg : Config) (group : List Arrival) : Bool := group.length = cfg.fNumSource

def ofId (stfId : BitVec 32) (received : List Arrival) : List Arrival :=
  received.filter fun a => a.stfId = stfId

theorem arrivals_joining (clock : Nat → Int) (ticks : Nat) (stfId : BitVec 32)
    (received : Option Arrival) :
    arrivals (joining clock ticks stfId received) = ofId stfId received.toList := by
  rw [joining, arrivals, List.map_map]
  exact List.map_id _

theorem start_joining {clock : Nat → Int} {ticks : Nat} {received : Option Arrival} :
    ∀ b ∈ joining clock ticks stfId received, b.start = clock ticks := by
  intro b hb
  obtain ⟨a, -, rfl⟩ := List.mem_map.mp hb
  rfl

theorem length_joining (clock : Nat → Int) (ticks : Nat) (stfId : BitVec 32)
    (received : Option Arrival) : (joining clock ticks stfId received).length ≤ 1 := by
  rw [joining, List.length_map]
  exact (List.length_filter_le _ _).trans (Option.length_toList_le)

section Settled

variable {first last tick : Nat} {tfBuf joined kept : List STFBuffer} {new : List Event}

/-- What is left of an entry is not complete, and is not older than the entry. -/
theorem Settled.room (hsource : 1 ≤ cfg.fNumSource) (hshort : tfBuf.length < cfg.fNumSource)
    (hjoined : joined.length ≤ 1) (hstart : ∀ b ∈ tfBuf ++ joined, clock tick ≤ b.start)
    (h : Settled cfg clock first last stfId (tfBuf ++ joined) new kept) :
    kept.length < cfg.fNumSource ∧ ∀ b ∈ kept, clock tick ≤ b.start := by
  cases h with
  | sent | discarded => exact ⟨hsource, fun b hb => absurd hb List.not_mem_nil⟩
  | kept hlength =>
      refine ⟨?_, hstart⟩
      rw [List.length_append] at hlength ⊢
      omega

/-- What a call adds to the groups of a number, while the timeout has not run out. -/
theorem Settled.push (hclock : SteadyClock clock) (hshort : tfBuf.length < cfg.fNumSource)
    (hjoined : joined.length ≤ 1) (hstart : ∀ b ∈ tfBuf ++ joined, clock tick ≤ b.start)
    (htime : (clock last - clock tick).tdiv 1000000 ≤ cfg.fBufferTimeoutInMs)
    (closed : List (List Arrival))
    (h : Settled cfg clock first last stfId (tfBuf ++ joined) new kept) :
    (⟨closed ++ new.map Event.sentArrivals, arrivals kept⟩ : Batches Arrival) =
      (arrivals joined).foldl (Batches.push (complete cfg)) ⟨closed, arrivals tfBuf⟩ := by
  have hcases : joined = [] ∨ ∃ b, joined = [b] := by
    match joined, hjoined with
    | [], _ => exact Or.inl rfl
    | [b], _ => exact Or.inr ⟨b, rfl⟩
  cases h with
  | sent hfull =>
      obtain rfl | ⟨b, rfl⟩ := hcases
      · rw [List.append_nil] at hfull
        omega
      · have hcomplete : complete cfg (arrivals tfBuf ++ [b.arrival]) = true := by
          rw [complete, decide_eq_true_iff, ← hfull]
          simp [arrivals]
        simp only [arrivals, List.map_cons, List.map_nil, List.foldl_cons, List.foldl_nil,
          Batches.push] at hcomplete ⊢
        rw [if_pos hcomplete]
        simp [Event.sentArrivals, arrivals]
  | kept hlength =>
      obtain rfl | ⟨b, rfl⟩ := hcases
      · simp [arrivals]
      · have hcomplete : ¬ complete cfg (arrivals tfBuf ++ [b.arrival]) = true := by
          rw [complete, decide_eq_true_iff]
          simpa [arrivals] using hlength
        simp only [arrivals, List.map_cons, List.map_nil, List.foldl_cons, List.foldl_nil,
          Batches.push, List.map_append] at hcomplete ⊢
        rw [if_neg hcomplete, List.append_nil]
  | @discarded now front hlength hfront hlow hhigh hold =>
      have hnow : clock now ≤ clock last := hclock (Nat.le_of_lt hhigh)
      have hfirst := hstart front hfront
      have hage := Int.tdiv_le_tdiv (show (0 : Int) < 1000000 by decide)
        (show clock now - front.start ≤ clock last - clock tick by omega)
      omega

end Settled

/-- From any state: until the timeout runs out, the sub time frames of a number are
batched in the order in which they come. -/
theorem run_in_time (hclock : SteadyClock clock) (hsource : 1 ≤ cfg.fNumSource)
    {received : List Arrival} {s : State} (hsound : Sound cfg clock received s)
    {inputs : List Input} (hformed : ∀ a ∈ receivedBy inputs, a.WellFormed) {tick : Nat}
    (hstart : ∀ b ∈ entryOf stfId s.fTFBuffer, clock tick ≤ b.start) (htick : tick ≤ s.ticks)
    (hshort : (entryOf stfId s.fTFBuffer).length < cfg.fNumSource)
    (closed : List (List Arrival)) :
    ∃ s', run cfg clock s inputs = .ok s' ∧ s.ticks ≤ s'.ticks ∧
      ((clock s'.ticks - clock tick).tdiv 1000000 ≤ cfg.fBufferTimeoutInMs →
        ∃ new, s'.history stfId = s.history stfId ++ new ∧
          (⟨closed ++ new.map Event.sentArrivals, arrivals (entryOf stfId s'.fTFBuffer)⟩ :
            Batches Arrival) = (ofId stfId (receivedBy inputs)).foldl
              (Batches.push (complete cfg)) ⟨closed, arrivals (entryOf stfId s.fTFBuffer)⟩) := by
  induction inputs generalizing s received closed with
  | nil =>
      refine ⟨s, rfl, Nat.le_refl _, fun _ => ⟨[], (List.append_nil _).symm, ?_⟩⟩
      simp [receivedBy, ofId]
  | cons input inputs ih =>
      have hsplit : receivedBy (input :: inputs) = input.received.toList ++ receivedBy inputs := rfl
      rw [hsplit] at hformed ⊢
      obtain ⟨s₁, hcall, hsound₁, -⟩ := hsound.conditionalRun hclock hsource input
        (fun a ha => hformed a (List.mem_append_left _ (Option.mem_toList.mpr ha)))
      obtain ⟨new₁, hhistory₁, hticks₁, hsettled⟩ :=
        @conditionalRun_settles cfg clock stfId hsource s s₁ hsound.keys input hcall
      have hjoined := length_joining clock s.ticks stfId input.received
      have hstart₁ : ∀ b ∈ entryOf stfId s.fTFBuffer ++ joining clock s.ticks stfId input.received,
          clock tick ≤ b.start := by
        intro b hb
        cases List.mem_append.mp hb with
        | inl hb => exact hstart b hb
        | inr hb =>
            rw [start_joining b hb]
            exact hclock htick
      obtain ⟨hshort₁, hkept⟩ := hsettled.room hsource hshort hjoined hstart₁
      obtain ⟨s', hrun, hticks, hbatches⟩ := ih hsound₁
        (fun a ha => hformed a (List.mem_append_right _ ha)) hkept (htick.trans hticks₁) hshort₁
        (closed ++ new₁.map Event.sentArrivals)
      refine ⟨s', ?_, hticks₁.trans hticks, fun htime => ?_⟩
      · rw [TimeFrameBuilder.run, List.foldlM_cons, hcall]
        exact hrun
      · have hlater : clock s₁.ticks ≤ clock s'.ticks := hclock hticks
        have htime₁ : (clock s₁.ticks - clock tick).tdiv 1000000 ≤ cfg.fBufferTimeoutInMs :=
          (Int.tdiv_le_tdiv (by decide) (by omega)).trans htime
        obtain ⟨new, hhistory, hgroups⟩ := hbatches htime
        have hpush := hsettled.push hclock hshort hjoined hstart₁ htime₁ closed
        rw [arrivals_joining] at hpush
        refine ⟨new₁ ++ new, by rw [hhistory, hhistory₁, List.append_assoc], ?_⟩
        rw [List.map_append, ← List.append_assoc, hgroups, hpush, ofId, ofId, ofId,
          List.filter_append, List.foldl_append]

/-- In every run: from a point where none of a number's sub time frames is buffered, and
until the timeout runs out, they are sent in groups of the number of sources, in the order
in which they come, whatever else comes and in whatever order the buffer is gone through.
What is left over is buffered, and nothing is discarded. Every send succeeds here. -/
theorem frames_delivered_in_time {cfg : Config} {clock : Nat → Int} (hclock : SteadyClock clock)
    (hsource : 1 ≤ cfg.fNumSource) (earlier inputs : List Input)
    (hformed : ∀ a ∈ receivedBy (earlier ++ inputs), a.WellFormed) (stfId : BitVec 32) :
    ∃ s s', run cfg clock {} earlier = .ok s ∧ run cfg clock s inputs = .ok s' ∧
      (entryOf stfId s.fTFBuffer = [] →
        (clock s'.ticks - clock s.ticks).tdiv 1000000 ≤ cfg.fBufferTimeoutInMs →
          ∃ new, s'.history stfId = s.history stfId ++ new ∧
            (⟨new.map Event.sentArrivals, arrivals (entryOf stfId s'.fTFBuffer)⟩ :
              Batches Arrival) =
                (ofId stfId (receivedBy inputs)).foldl (Batches.push (complete cfg)) {}) := by
  have hsplit : receivedBy (earlier ++ inputs) = receivedBy earlier ++ receivedBy inputs :=
    List.flatMap_append
  rw [hsplit] at hformed
  have hempty : Sound cfg clock [] {} :=
    ⟨List.nodup_nil, fun _ hentry => absurd hentry List.not_mem_nil,
      fun _ hevent => absurd hevent List.not_mem_nil⟩
  obtain ⟨s, hrun, hsound, -⟩ := hempty.run hclock hsource earlier
    fun a ha => hformed a (List.mem_append_left _ ha)
  by_cases hnone : entryOf stfId s.fTFBuffer = []
  · obtain ⟨s', hrun', -, hbatches⟩ := @run_in_time cfg clock stfId hclock hsource _ s hsound
      inputs (fun a ha => hformed a (List.mem_append_right _ ha)) s.ticks
      (by rw [hnone]; exact fun b hb => absurd hb List.not_mem_nil) (Nat.le_refl _)
      (by rw [hnone]; exact hsource) []
    refine ⟨s, s', hrun, hrun', fun _ htime => ?_⟩
    obtain ⟨new, hhistory, hgroups⟩ := hbatches htime
    rw [hnone] at hgroups
    exact ⟨new, hhistory, hgroups⟩
  · obtain ⟨s', hrun', -⟩ := hsound.run hclock hsource inputs
      fun a ha => hformed a (List.mem_append_right _ ha)
    exact ⟨s, s', hrun, hrun', fun h => absurd h hnone⟩

/-- Two sources of time frame 7, the second one arriving in a later call that goes
through the buffer backwards. -/
theorem frames_delivered_in_time_two_sources :
    let first : Arrival :=
      ⟨0, [SubTimeFrame.Header.encode { timeFrameId := 7, femId := 0x20 }, List.replicate 16 0]⟩
    let second : Arrival :=
      ⟨1, [SubTimeFrame.Header.encode { timeFrameId := 7, femId := 0x21 }, List.replicate 16 1]⟩
    let inputs : List Input :=
      [⟨some first, id, fun _ => .refl _⟩, ⟨none, id, fun _ => .refl _⟩,
        ⟨some second, List.reverse, List.reverse_perm⟩]
    let cfg : Config := { fNumSource := 2 }
    let clock := fun n : Nat => (n : Int)
    ∃ s s', run cfg clock {} [] = .ok s ∧ run cfg clock s inputs = .ok s' ∧
      (entryOf 7 s.fTFBuffer = [] →
        (clock s'.ticks - clock s.ticks).tdiv 1000000 ≤ cfg.fBufferTimeoutInMs →
          ∃ new, s'.history 7 = s.history 7 ++ new ∧
            (⟨new.map Event.sentArrivals, arrivals (entryOf 7 s'.fTFBuffer)⟩ : Batches Arrival) =
              (ofId 7 (receivedBy inputs)).foldl (Batches.push (complete cfg)) {}) := by
  intro first second inputs cfg clock
  have hreceived : receivedBy ([] ++ inputs) = [first, second] := rfl
  refine frames_delivered_in_time (fun _ _ => Int.ofNat_le.mpr) (by decide) [] inputs ?_ 7
  rw [hreceived]
  intro a ha
  rcases List.mem_pair.mp ha with rfl | rfl
  · exact ⟨by decide, by decide⟩
  · exact ⟨by decide, by decide⟩

end TimeFrameBuilder
end Userworks
