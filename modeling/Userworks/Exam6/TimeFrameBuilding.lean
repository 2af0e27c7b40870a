import Userworks.Exam6.TimeFrameBuilder
import Mathlib.Data.List.Nodup
import Mathlib.Data.List.Perm.Subperm

/-!
Soundness of time frame building over whole runs.

Between two calls every buffered entry holds at least one and fewer than all of
the sub time frames of its own number, in arrival order and with clock readings
that do not decrease. A call moves the received message through the buffer
without losing or doubling anything, so every sub time frame is sent once, still
buffered, or discarded with the incomplete frame it belonged to.
-/
namespace Userworks
namespace TimeFrameBuilder

def totalLength (parts : List Bytes) : Nat := (parts.map List.length).sum

def arrivals (tfBuf : List STFBuffer) : List Arrival := tfBuf.map STFBuffer.arrival

/-- The sub time frames in the buffer. -/
def buffered (table : TFBuffer) : List Arrival := table.flatMap fun entry => arrivals entry.2

def Event.sentArrivals : Event → List Arrival
  | .sent _ tfBuf _ _ _ => arrivals tfBuf
  | .discarded _ _ _ => []

def Event.discardedArrivals : Event → List Arrival
  | .sent _ _ _ _ _ => []
  | .discarded _ tfBuf _ => arrivals tfBuf

def State.sent (s : State) : List Arrival := s.events.flatMap Event.sentArrivals

def State.discarded (s : State) : List Arrival := s.events.flatMap Event.discardedArrivals

/-- The members of an entry have its number, came in this order and were buffered
at clock readings that do not decrease. -/
structure Collected (clock : Nat → Int) (received : List Arrival) (ticks : Nat)
    (stfId : BitVec 32) (tfBuf : List STFBuffer) : Prop where
  nonempty : tfBuf ≠ []
  ids : ∀ a ∈ arrivals tfBuf, a.stfId = stfId
  arrived : (arrivals tfBuf).Sublist received
  ordered : tfBuf.Pairwise fun b c => b.start ≤ c.start
  past : ∀ b ∈ tfBuf, b.start ≤ clock ticks

variable {cfg : Config} {clock : Nat → Int} {received : List Arrival}

theorem Collected.mono {ticks ticks' : Nat} {stfId : BitVec 32} {tfBuf : List STFBuffer}
    (hclock : SteadyClock clock) (hticks : ticks ≤ ticks')
    (h : Collected clock received ticks stfId tfBuf) :
    Collected clock received ticks' stfId tfBuf :=
  { h with past := fun b hb => (h.past b hb).trans (hclock hticks) }

theorem Collected.later {ticks : Nat} {stfId : BitVec 32} {tfBuf : List STFBuffer} (a : Arrival)
    (h : Collected clock received ticks stfId tfBuf) :
    Collected clock (received ++ [a]) ticks stfId tfBuf :=
  { h with arrived := h.arrived.trans (List.sublist_append_left _ _) }

/-- A message joins the entry of its number. -/
theorem Collected.emplace {ticks : Nat} {tfBuf : List STFBuffer} {a : Arrival}
    (hclock : SteadyClock clock) (h : Collected clock received ticks a.stfId tfBuf) :
    Collected clock (received ++ [a]) (ticks + 1) a.stfId (tfBuf ++ [⟨a, clock ticks⟩]) := by
  have hnext : clock ticks ≤ clock (ticks + 1) := hclock (Nat.le_succ ticks)
  refine ⟨by simp, ?_, ?_, ?_, ?_⟩
  · intro b hb
    rw [arrivals, List.map_append, List.mem_append] at hb
    cases hb with
    | inl hb =>
        exact h.ids b hb
    | inr hb =>
        rw [List.mem_singleton.mp hb]
  · rw [arrivals, List.map_append]
    exact h.arrived.append (List.Sublist.refl _)
  · rw [List.pairwise_append]
    refine ⟨h.ordered, List.pairwise_singleton _ _, ?_⟩
    intro b hb c hc
    rw [List.mem_singleton.mp hc]
    exact h.past b hb
  · intro b hb
    cases List.mem_append.mp hb with
    | inl hb =>
        exact (h.past b hb).trans hnext
    | inr hb =>
        rw [List.mem_singleton.mp hb]
        exact hnext

theorem Collected.first (clock : Nat → Int) (hclock : SteadyClock clock) (received : List Arrival)
    (ticks : Nat) (a : Arrival) :
    Collected clock (received ++ [a]) (ticks + 1) a.stfId [⟨a, clock ticks⟩] := by
  refine ⟨by simp, ?_, List.sublist_append_right _ _, List.pairwise_singleton _ _, ?_⟩
  · intro b hb
    rw [arrivals, List.map_singleton, List.mem_singleton] at hb
    rw [hb]
  · intro b hb
    rw [List.mem_singleton.mp hb]
    exact hclock (Nat.le_succ ticks)

theorem partsLength_signExtend {parts : List Bytes} (h : totalLength parts < 2 ^ 31) :
    (partsLength parts).signExtend 64 = BitVec.ofNat 64 (totalLength parts) := by
  have hsum : partsLength parts = BitVec.ofNat 32 (totalLength parts) := by
    have hfold := @foldl_add_ofNat 32 _ (fun m : Bytes => m.length) parts 0
    rw [Nat.zero_add] at hfold
    exact hfold
  have hmsb : (BitVec.ofNat 32 (totalLength parts)).msb = false := by
    rw [BitVec.msb_eq_false_iff_two_mul_lt, BitVec.toNat_ofNat]
    omega
  rw [hsum, BitVec.signExtend_eq_setWidth_of_msb_false hmsb]
  apply BitVec.eq_of_toNat_eq
  simp only [BitVec.toNat_setWidth, BitVec.toNat_ofNat]
  omega

/-- The header of a frame whose size is below `2 ^ 31` holds that size. -/
theorem frameHeader_length {stfId : BitVec 32} {tfBuf : List STFBuffer}
    (hsize : 24 + totalLength ((arrivals tfBuf).flatMap Arrival.parts) < 2 ^ 31) :
    (frameHeader cfg stfId tfBuf).length.toNat =
      24 + totalLength ((arrivals tfBuf).flatMap Arrival.parts) := by
  have htotal : ∀ (start : Nat), start + totalLength ((arrivals tfBuf).flatMap Arrival.parts) <
      2 ^ 31 → tfBuf.foldl
        (fun init stfBuf => init + (partsLength stfBuf.arrival.parts).signExtend 64)
        (BitVec.ofNat 64 start) =
      BitVec.ofNat 64 (start + totalLength ((arrivals tfBuf).flatMap Arrival.parts)) := by
    clear hsize
    induction tfBuf with
    | nil => intro start _; rfl
    | cons b tfBuf ih =>
        intro start hsize
        have hsplit : totalLength ((arrivals (b :: tfBuf)).flatMap Arrival.parts) =
            totalLength b.arrival.parts +
              totalLength ((arrivals tfBuf).flatMap Arrival.parts) := by
          simp only [arrivals, List.map_cons, List.flatMap_cons, totalLength, List.map_append,
            List.sum_append_nat]
        rw [hsplit] at hsize ⊢
        rw [List.foldl_cons, partsLength_signExtend (by omega), ← BitVec.ofNat_add,
          ih _ (by omega), Nat.add_assoc]
  have hlength : (frameHeader cfg stfId tfBuf).length =
      (BitVec.ofNat 64 (24 + totalLength ((arrivals tfBuf).flatMap Arrival.parts))).setWidth 32 :=
    congrArg (BitVec.setWidth 32) (htotal 24 hsize)
  rw [hlength, BitVec.toNat_setWidth, BitVec.toNat_ofNat]
  omega

/-- What a history entry says about the time frame it is about. -/
def Event.Sound (cfg : Config) (clock : Nat → Int) (received : List Arrival) : Event → Prop
  | .sent stfId tfBuf outParts _ _ =>
      tfBuf.length = cfg.fNumSource ∧
        (∃ ticks, Collected clock received ticks stfId tfBuf) ∧
        outParts = (frameHeader cfg stfId tfBuf).encode ::
          (arrivals tfBuf).flatMap Arrival.parts
  | .discarded stfId tfBuf now =>
      tfBuf.length < cfg.fNumSource ∧
        (∃ ticks, Collected clock received ticks stfId tfBuf ∧ now = clock ticks) ∧
        ∃ front ∈ tfBuf, (∀ b ∈ tfBuf, front.start ≤ b.start) ∧
          cfg.fBufferTimeoutInMs < (now - front.start).tdiv 1000000

/-- The invariant of the builder. -/
structure Sound (cfg : Config) (clock : Nat → Int) (received : List Arrival) (s : State) :
    Prop where
  keys : (s.fTFBuffer.map Prod.fst).Nodup
  entries : ∀ entry ∈ s.fTFBuffer, Collected clock received s.ticks entry.1 entry.2 ∧
    entry.2.length < cfg.fNumSource
  events : ∀ event ∈ s.events, event.Sound cfg clock received

/-- How often a sub time frame is accounted for. -/
def State.count (s : State) (a : Arrival) : Nat :=
  s.sent.count a + (buffered s.fTFBuffer).count a + s.discarded.count a

@[simp] theorem buffered_cons (entry : BitVec 32 × List STFBuffer) (table : TFBuffer) :
    buffered (entry :: table) = arrivals entry.2 ++ buffered table := rfl

theorem buffered_append (table table' : TFBuffer) :
    buffered (table ++ table') = buffered table ++ buffered table' :=
  List.flatMap_append

theorem events_append_count (s : State) (event : Event) (a : Arrival) :
    ({ s with events := s.events ++ [event] } : State).count a =
      s.count a + event.sentArrivals.count a + event.discardedArrivals.count a := by
  simp only [State.count, State.sent, State.discarded, List.flatMap_append, List.flatMap_singleton,
    List.count_append]
  omega

theorem Event.Sound.later {event : Event} (a : Arrival) (h : event.Sound cfg clock received) :
    event.Sound cfg clock (received ++ [a]) := by
  cases event with
  | sent stfId tfBuf outParts dqmParts decimatorParts =>
      obtain ⟨hlen, ⟨ticks, hcollected⟩, hparts⟩ := h
      exact ⟨hlen, ⟨ticks, hcollected.later a⟩, hparts⟩
  | discarded stfId tfBuf now =>
      obtain ⟨hlen, ⟨ticks, hcollected, hnow⟩, hold⟩ := h
      exact ⟨hlen, ⟨ticks, hcollected.later a, hnow⟩, hold⟩

/-- One more sound event at the end of the history. -/
theorem Sound.events_append {s : State} (h : Sound cfg clock received s) {event : Event}
    (hevent : event.Sound cfg clock received) :
    ∀ e ∈ s.events ++ [event], e.Sound cfg clock received := by
  intro e he
  cases List.mem_append.mp he with
  | inl he => exact h.events e he
  | inr he =>
      rw [List.mem_singleton.mp he]
      exact hevent

theorem Sound.entries_later {s : State} (hclock : SteadyClock clock)
    (h : Sound cfg clock received s) :
    ∀ entry ∈ s.fTFBuffer, Collected clock received (s.ticks + 1) entry.1 entry.2 ∧
      entry.2.length < cfg.fNumSource := by
  intro entry hentry
  obtain ⟨hcollected, hlen⟩ := h.entries entry hentry
  exact ⟨hcollected.mono hclock (Nat.le_succ _), hlen⟩

section Visit

variable {s : State} {stfId : BitVec 32} {tfBuf : List STFBuffer} {front : STFBuffer}
  {rest : List STFBuffer}

theorem Sound.send (h : Sound cfg clock received s)
    (hcollected : Collected clock received s.ticks stfId tfBuf)
    (hfull : tfBuf.length = cfg.fNumSource) :
    Sound cfg clock received (TimeFrameBuilder.send cfg s stfId tfBuf) :=
  ⟨h.keys, h.entries, h.events_append
    ⟨hfull, ⟨s.ticks, hcollected⟩, by rw [arrivals, List.flatMap_map]⟩⟩

theorem count_send (cfg : Config) (s : State) (stfId : BitVec 32) (tfBuf : List STFBuffer)
    (a : Arrival) :
    (TimeFrameBuilder.send cfg s stfId tfBuf).count a = s.count a + (arrivals tfBuf).count a := by
  have hcount := events_append_count s (.sent stfId tfBuf
    ((frameHeader cfg stfId tfBuf).encode :: tfBuf.flatMap fun b => b.arrival.parts) none []) a
  simpa [State.count, TimeFrameBuilder.send, Event.sentArrivals, Event.discardedArrivals,
    State.sent, State.discarded] using hcount

/-- The first part of an entry is its oldest one. -/
theorem Sound.discard (hclock : SteadyClock clock) (h : Sound cfg clock received s)
    (hcollected : Collected clock received s.ticks stfId (front :: rest))
    (hshort : (front :: rest).length < cfg.fNumSource)
    (hold : (clock s.ticks - front.start).tdiv 1000000 > cfg.fBufferTimeoutInMs) :
    Sound cfg clock received { s with
      ticks := s.ticks + 1
      events := s.events ++ [.discarded stfId (front :: rest) (clock s.ticks)] } := by
  refine ⟨h.keys, h.entries_later hclock, h.events_append
    ⟨hshort, ⟨s.ticks, hcollected, rfl⟩, front, List.mem_cons_self, ?_, hold⟩⟩
  intro b hb
  cases List.mem_cons.mp hb with
  | inl hfirst => rw [hfirst]
  | inr hlater => exact (List.pairwise_cons.mp hcollected.ordered).1 b hlater

theorem Sound.keep (hclock : SteadyClock clock) (h : Sound cfg clock received s)
    (hcollected : Collected clock received s.ticks stfId tfBuf)
    (hshort : tfBuf.length < cfg.fNumSource) (hfresh : stfId ∉ s.fTFBuffer.map Prod.fst) :
    Sound cfg clock received { s with
      ticks := s.ticks + 1
      fTFBuffer := s.fTFBuffer ++ [(stfId, tfBuf)] } where
  keys := by
    rw [List.map_append, List.nodup_append]
    refine ⟨h.keys, List.pairwise_singleton _ _, ?_⟩
    intro key hkey new hnew heq
    rw [List.map_singleton, List.mem_singleton] at hnew
    rw [heq, hnew] at hkey
    exact hfresh hkey
  entries := by
    intro entry hentry
    cases List.mem_append.mp hentry with
    | inl hentry => exact h.entries_later hclock entry hentry
    | inr hentry =>
        rw [List.mem_singleton.mp hentry]
        exact ⟨hcollected.mono hclock (Nat.le_succ _), hshort⟩
  events := h.events

/-- One round of the loop settles its entry: it is sent when complete, and else
discarded or kept. -/
theorem Sound.visit (hclock : SteadyClock clock) (h : Sound cfg clock received s)
    (hcollected : Collected clock received s.ticks stfId tfBuf)
    (hroom : tfBuf.length ≤ cfg.fNumSource) (hfresh : stfId ∉ s.fTFBuffer.map Prod.fst) :
    ∃ s', TimeFrameBuilder.visit cfg clock s (stfId, tfBuf) = .ok s' ∧
      Sound cfg clock received s' ∧ s.ticks ≤ s'.ticks ∧
      (∀ key, key ∈ s'.fTFBuffer.map Prod.fst → key ∈ s.fTFBuffer.map Prod.fst ∨ key = stfId) ∧
      ∀ a, s'.count a = s.count a + (arrivals tfBuf).count a := by
  by_cases hfull : tfBuf.length = cfg.fNumSource
  · exact ⟨TimeFrameBuilder.send cfg s stfId tfBuf, if_pos hfull, h.send hcollected hfull,
      Nat.le_refl _, fun key hkey => Or.inl hkey, count_send cfg s stfId tfBuf⟩
  · obtain ⟨front, rest, rfl⟩ := List.exists_cons_of_ne_nil hcollected.nonempty
    have hshort : (front :: rest).length < cfg.fNumSource := by omega
    by_cases hold : (clock s.ticks - front.start).tdiv 1000000 > cfg.fBufferTimeoutInMs
    · refine ⟨_, ?_, h.discard hclock hcollected hshort hold, Nat.le_succ _,
        fun key hkey => Or.inl hkey, fun a => ?_⟩
      · simp only [TimeFrameBuilder.visit, hfull, if_false, hold, if_true]
      · exact (events_append_count s (.discarded stfId (front :: rest) (clock s.ticks)) a).trans
          (by simp only [Event.sentArrivals, Event.discardedArrivals, List.count_nil,
            Nat.add_zero])
    · refine ⟨_, ?_, h.keep hclock hcollected hshort hfresh, Nat.le_succ _, ?_, fun a => ?_⟩
      · simp only [TimeFrameBuilder.visit, hfull, if_false, hold]
      · intro key hkey
        rw [List.map_append, List.mem_append, List.map_singleton, List.mem_singleton] at hkey
        exact hkey
      · simp only [State.count, State.sent, State.discarded, buffered_append, List.count_append]
        simp only [buffered, List.flatMap_singleton]
        omega

end Visit

/-- The loop settles every entry it is given. -/
theorem Sound.foldlM {s : State} {table : TFBuffer} (hclock : SteadyClock clock)
    (h : Sound cfg clock received s) (hkeys : ((s.fTFBuffer ++ table).map Prod.fst).Nodup)
    (hentries : ∀ entry ∈ table, Collected clock received s.ticks entry.1 entry.2 ∧
      entry.2.length ≤ cfg.fNumSource) :
    ∃ s', table.foldlM (TimeFrameBuilder.visit cfg clock) s = .ok s' ∧
      Sound cfg clock received s' ∧
      ∀ a, s'.count a = s.count a + (buffered table).count a := by
  induction table generalizing s with
  | nil => exact ⟨s, rfl, h, fun a => rfl⟩
  | cons entry table ih =>
      obtain ⟨stfId, tfBuf⟩ := entry
      obtain ⟨hcollected, hroom⟩ := hentries _ List.mem_cons_self
      rw [List.map_append, List.map_cons, List.nodup_append] at hkeys
      obtain ⟨hkept, hrest, hdisjoint⟩ := hkeys
      have hfresh : stfId ∉ s.fTFBuffer.map Prod.fst :=
        fun hkey => hdisjoint _ hkey _ List.mem_cons_self rfl
      obtain ⟨s₁, hvisit, hsound, hticks, hsub, hcount⟩ := h.visit hclock hcollected hroom hfresh
      have hkeys₁ : ((s₁.fTFBuffer ++ table).map Prod.fst).Nodup := by
        rw [List.nodup_cons] at hrest
        rw [List.map_append, List.nodup_append]
        refine ⟨hsound.keys, hrest.2, ?_⟩
        rintro key hkey _ hmem rfl
        cases hsub key hkey with
        | inl hkey =>
            exact hdisjoint _ hkey _ (List.mem_cons_of_mem _ hmem) rfl
        | inr heq =>
            subst heq
            exact hrest.1 hmem
      obtain ⟨s₂, hloop, hsound₂, hcount₂⟩ := ih hsound hkeys₁ fun entry hentry =>
        ⟨(hentries entry (List.mem_cons_of_mem _ hentry)).1.mono hclock hticks,
          (hentries entry (List.mem_cons_of_mem _ hentry)).2⟩
      refine ⟨s₂, ?_, hsound₂, ?_⟩
      · rw [List.foldlM_cons, hvisit]
        exact hloop
      · intro a
        rw [hcount₂, hcount, buffered_cons, List.count_append, Nat.add_assoc]

theorem mem_keys_emplaceBack {stfId key : BitVec 32} {stfBuf : STFBuffer} {table : TFBuffer} :
    key ∈ (emplaceBack stfId stfBuf table).map Prod.fst ↔
      key ∈ table.map Prod.fst ∨ key = stfId := by
  induction table with
  | nil => simp [emplaceBack]
  | cons entry table ih =>
      rw [emplaceBack]
      split
      · rename_i hkey
        simp only [List.map_cons, List.mem_cons]
        grind
      · simp only [List.map_cons, List.mem_cons, ih, or_assoc]

theorem nodup_keys_emplaceBack {stfId : BitVec 32} {stfBuf : STFBuffer} {table : TFBuffer}
    (h : (table.map Prod.fst).Nodup) :
    ((emplaceBack stfId stfBuf table).map Prod.fst).Nodup := by
  induction table with
  | nil => exact List.pairwise_singleton _ _
  | cons entry table ih =>
      rw [List.map_cons, List.nodup_cons] at h
      rw [emplaceBack]
      split
      · exact List.nodup_cons.mpr h
      · rename_i hkey
        rw [List.map_cons, List.nodup_cons, mem_keys_emplaceBack]
        exact ⟨fun hmem => hmem.elim h.1 hkey, ih h.2⟩

theorem count_buffered_emplaceBack (stfId : BitVec 32) (stfBuf : STFBuffer) (table : TFBuffer)
    (x : Arrival) :
    (buffered (emplaceBack stfId stfBuf table)).count x =
      (buffered table).count x + [stfBuf.arrival].count x := by
  induction table with
  | nil => simp [emplaceBack, buffered, arrivals]
  | cons entry table ih =>
      rw [emplaceBack]
      split
      · simp only [buffered_cons, arrivals, List.map_append, List.map_singleton, List.count_append]
        omega
      · rw [buffered_cons, buffered_cons, List.count_append, ih, List.count_append, Nat.add_assoc]

/-- With a received message every entry stays collected and may now be complete. -/
theorem collected_emplaceBack {ticks : Nat} {a : Arrival} {table : TFBuffer}
    (hclock : SteadyClock clock) (hsource : 1 ≤ cfg.fNumSource)
    (h : ∀ entry ∈ table, Collected clock received ticks entry.1 entry.2 ∧
      entry.2.length < cfg.fNumSource) :
    ∀ entry ∈ emplaceBack a.stfId ⟨a, clock ticks⟩ table,
      Collected clock (received ++ [a]) (ticks + 1) entry.1 entry.2 ∧
        entry.2.length ≤ cfg.fNumSource := by
  induction table with
  | nil =>
      intro entry hentry
      rw [List.mem_singleton.mp hentry]
      exact ⟨.first clock hclock received ticks a, hsource⟩
  | cons head table ih =>
      obtain ⟨hcollected, hlen⟩ := h head List.mem_cons_self
      have hrest : ∀ entry ∈ table, Collected clock (received ++ [a]) (ticks + 1) entry.1 entry.2 ∧
          entry.2.length ≤ cfg.fNumSource := by
        intro entry hentry
        obtain ⟨hcollected, hlen⟩ := h entry (List.mem_cons_of_mem _ hentry)
        exact ⟨(hcollected.later a).mono hclock (Nat.le_succ _), Nat.le_of_lt hlen⟩
      intro entry hentry
      rw [emplaceBack] at hentry
      split at hentry
      · rename_i hkey
        cases List.mem_cons.mp hentry with
        | inl heq =>
            subst heq
            rw [hkey] at hcollected
            refine ⟨?_, ?_⟩
            · simpa only [hkey] using hcollected.emplace hclock
            · rw [List.length_append, List.length_singleton]
              exact hlen
        | inr hentry =>
            exact hrest entry hentry
      · cases List.mem_cons.mp hentry with
        | inl heq =>
            subst heq
            exact ⟨(hcollected.later a).mono hclock (Nat.le_succ _), Nat.le_of_lt hlen⟩
        | inr hentry =>
            exact ih (fun entry hentry => h entry (List.mem_cons_of_mem _ hentry)) entry hentry

/-- The loop over the whole buffer, in whatever order. -/
theorem loop_sound {s : State} (hclock : SteadyClock clock)
    (hkeys : (s.fTFBuffer.map Prod.fst).Nodup)
    (hentries : ∀ entry ∈ s.fTFBuffer, Collected clock received s.ticks entry.1 entry.2 ∧
      entry.2.length ≤ cfg.fNumSource)
    (hevents : ∀ event ∈ s.events, event.Sound cfg clock received) (input : Input) :
    ∃ s', (input.rehash s.fTFBuffer).foldlM (TimeFrameBuilder.visit cfg clock)
        { s with fTFBuffer := [] } = .ok s' ∧
      Sound cfg clock received s' ∧ ∀ a, s'.count a = s.count a := by
  have hperm := input.rehash_perm s.fTFBuffer
  have hempty : Sound cfg clock received { s with fTFBuffer := [] } :=
    ⟨List.nodup_nil, fun _ hentry => (List.not_mem_nil hentry).elim, hevents⟩
  obtain ⟨s', hloop, hsound, hcount⟩ := hempty.foldlM hclock
    (((hperm.map Prod.fst).nodup_iff).mpr hkeys)
    (fun entry hentry => hentries entry (hperm.mem_iff.mp hentry))
  refine ⟨s', hloop, hsound, ?_⟩
  intro a
  have hbuffered : (buffered (input.rehash s.fTFBuffer)).count a =
      (buffered s.fTFBuffer).count a :=
    (hperm.flatMap_right fun entry : BitVec 32 × List STFBuffer => arrivals entry.2).count_eq a
  rw [hcount, hbuffered]
  simp only [State.count, State.sent, State.discarded, buffered, List.flatMap_nil, List.count_nil]
  omega

/-- A message that the builder accepts: it has a header and at least one part
behind it. -/
structure Arrival.WellFormed (a : Arrival) : Prop where
  parts : 2 ≤ a.parts.length
  header : SubTimeFrame.Header.size ≤ (a.parts.headD []).length

/-- One call keeps the invariant and accounts for what it receives. -/
theorem Sound.conditionalRun {s : State} (hclock : SteadyClock clock)
    (hsource : 1 ≤ cfg.fNumSource) (h : Sound cfg clock received s) (input : Input)
    (hformed : ∀ a ∈ input.received, a.WellFormed) :
    ∃ s', TimeFrameBuilder.conditionalRun cfg clock s input = .ok s' ∧
      Sound cfg clock (received ++ input.received.toList) s' ∧
      ∀ a, s'.count a = s.count a + input.received.toList.count a := by
  cases hreceived : input.received with
  | none =>
      obtain ⟨s', hloop, hsound, hcount⟩ := loop_sound hclock h.keys
        (fun entry hentry => ⟨(h.entries entry hentry).1, Nat.le_of_lt (h.entries entry hentry).2⟩)
        h.events input
      refine ⟨s', ?_, by simpa using hsound, by simpa using hcount⟩
      simp only [TimeFrameBuilder.conditionalRun, hreceived, bind, Except.bind]
      exact hloop
  | some a =>
      obtain ⟨hparts, hheader⟩ := hformed a hreceived
      have hreceive : receive clock s a = .ok { s with
          fTFBuffer := emplaceBack a.stfId ⟨a, clock s.ticks⟩ s.fTFBuffer
          ticks := s.ticks + 1 } := by
        rw [receive, if_neg (by omega), if_neg (by omega)]
      obtain ⟨s', hloop, hsound, hcount⟩ := @loop_sound cfg clock (received ++ [a])
        { s with
          fTFBuffer := emplaceBack a.stfId ⟨a, clock s.ticks⟩ s.fTFBuffer
          ticks := s.ticks + 1 } hclock (nodup_keys_emplaceBack h.keys)
        (collected_emplaceBack hclock hsource h.entries)
        (fun event hevent => (h.events event hevent).later a) input
      refine ⟨s', ?_, hsound, ?_⟩
      · simp only [TimeFrameBuilder.conditionalRun, hreceived, hreceive, bind, Except.bind]
        exact hloop
      · intro x
        rw [hcount, Option.toList_some]
        simp only [State.count, count_buffered_emplaceBack, State.sent, State.discarded]
        omega

/-- The messages received by successive calls. -/
def receivedBy (inputs : List Input) : List Arrival :=
  inputs.flatMap fun input => input.received.toList

/-- Every run keeps the invariant and accounts for everything it received. -/
theorem Sound.run {s : State} (hclock : SteadyClock clock) (hsource : 1 ≤ cfg.fNumSource)
    (h : Sound cfg clock received s) (inputs : List Input)
    (hformed : ∀ a ∈ receivedBy inputs, a.WellFormed) :
    ∃ s', TimeFrameBuilder.run cfg clock s inputs = .ok s' ∧
      Sound cfg clock (received ++ receivedBy inputs) s' ∧
      ∀ a, s'.count a = s.count a + (receivedBy inputs).count a := by
  induction inputs generalizing s received with
  | nil => exact ⟨s, rfl, by simpa [receivedBy] using h, fun a => rfl⟩
  | cons input inputs ih =>
      have hsplit : receivedBy (input :: inputs) = input.received.toList ++ receivedBy inputs := rfl
      rw [hsplit] at hformed ⊢
      obtain ⟨s₁, hcall, hsound, hcount⟩ := h.conditionalRun hclock hsource input
        (fun a ha => hformed a (List.mem_append_left _ (Option.mem_toList.mpr ha)))
      obtain ⟨s₂, hrest, hsound₂, hcount₂⟩ := ih hsound
        (fun a ha => hformed a (List.mem_append_right _ ha))
      refine ⟨s₂, ?_, by rwa [← List.append_assoc], ?_⟩
      · rw [TimeFrameBuilder.run, List.foldlM_cons, hcall]
        exact hrest
      · intro a
        rw [hcount₂, hcount, List.count_append, Nat.add_assoc]

/-- Distinct numbers below `n`, as many as `n`, are all of them. -/
theorem perm_range_of_nodup {n : Nat} {sources : List Nat} (hnodup : sources.Nodup)
    (hlt : ∀ i ∈ sources, i < n) (hlen : sources.length = n) : sources.Perm (List.range n) :=
  (hnodup.subperm fun i hi => List.mem_range.mpr (hlt i hi)).perm_of_length_le
    (by rw [List.length_range, hlen])

/-- A sent time frame: a header followed by the complete parts, in arrival order,
of one sub time frame of its number from each source. -/
structure SentFrame (numSource : Nat) (received : List Arrival) (stfId : BitVec 32)
    (members : List Arrival) (outParts : List Bytes) : Prop where
  message : ∃ header : TimeFrame.Header,
    outParts = header.encode :: members.flatMap Arrival.parts ∧
      header.magic = TimeFrame.MAGIC ∧ header.timeFrameId = stfId ∧
      header.numSource = BitVec.ofNat 32 numSource ∧
      (24 + totalLength (members.flatMap Arrival.parts) < 2 ^ 31 →
        header.length.toNat = 24 + totalLength (members.flatMap Arrival.parts))
  ids : ∀ a ∈ members, a.stfId = stfId
  order : members.Sublist received
  sources : (members.map Arrival.source).Perm (List.range numSource)

/-- A discarded time frame: it is incomplete, and its oldest member was received
longer ago than the timeout. -/
structure DiscardedFrame (cfg : Config) (received : List Arrival) (stfId : BitVec 32)
    (tfBuf : List STFBuffer) (now : Int) : Prop where
  incomplete : tfBuf.length < cfg.fNumSource
  ids : ∀ a ∈ arrivals tfBuf, a.stfId = stfId
  order : (arrivals tfBuf).Sublist received
  expired : ∃ oldest ∈ tfBuf, (∀ b ∈ tfBuf, oldest.start ≤ b.start) ∧
    cfg.fBufferTimeoutInMs < (now - oldest.start).tdiv 1000000

/-- What may have happened to a time frame. -/
def Event.Correct (cfg : Config) (received : List Arrival) : Event → Prop
  | .sent stfId tfBuf outParts _ _ =>
      SentFrame cfg.fNumSource received stfId (arrivals tfBuf) outParts
  | .discarded stfId tfBuf now => DiscardedFrame cfg received stfId tfBuf now

/-- In any run in which every source sends a number at most once, the builder
sends and discards nothing but such time frames, and each received sub time frame
is in exactly one of the sent ones, the buffer and the discarded ones. -/
theorem time_frame_building_sound {cfg : Config} {clock : Nat → Int} (hclock : SteadyClock clock)
    (hsource : 1 ≤ cfg.fNumSource) (inputs : List Input)
    (hformed : ∀ a ∈ receivedBy inputs, a.WellFormed)
    (hsources : ∀ a ∈ receivedBy inputs, a.source < cfg.fNumSource)
    (honce : ((receivedBy inputs).map fun a => (a.source, a.stfId)).Nodup) :
    ∃ s, TimeFrameBuilder.run cfg clock {} inputs = .ok s ∧
      (∀ event ∈ s.events, event.Correct cfg (receivedBy inputs)) ∧
      (receivedBy inputs).Perm (s.sent ++ buffered s.fTFBuffer ++ s.discarded) ∧
      (s.sent ++ buffered s.fTFBuffer ++ s.discarded).Nodup := by
  have hstart : Sound cfg clock [] {} :=
    ⟨List.nodup_nil, fun _ hentry => (List.not_mem_nil hentry).elim,
      fun _ hevent => (List.not_mem_nil hevent).elim⟩
  obtain ⟨s, hrun, hsound, hcount⟩ := hstart.run hclock hsource inputs hformed
  have hperm : (receivedBy inputs).Perm (s.sent ++ buffered s.fTFBuffer ++ s.discarded) := by
    rw [List.perm_iff_count]
    intro a
    have hall := hcount a
    have hzero : State.count {} a = 0 := rfl
    rw [hzero, Nat.zero_add] at hall
    rw [List.count_append, List.count_append, ← hall, State.count]
  have hnodup : (receivedBy inputs).Nodup := List.Nodup.of_map _ honce
  refine ⟨s, hrun, ?_, hperm, hperm.nodup_iff.mp hnodup⟩
  intro event hevent
  have hevent := hsound.events event hevent
  cases event with
  | sent stfId tfBuf outParts dqmParts decimatorParts =>
      obtain ⟨hlen, ⟨ticks, hcollected⟩, hparts⟩ := hevent
      refine ⟨⟨_, hparts, rfl, rfl, rfl, frameHeader_length⟩, hcollected.ids,
        hcollected.arrived, perm_range_of_nodup ?_ ?_ ?_⟩
      · have hpairs := honce.sublist (hcollected.arrived.map fun a => (a.source, a.stfId))
        have hsame : (arrivals tfBuf).map (fun a => (a.source, a.stfId)) =
            ((arrivals tfBuf).map Arrival.source).map fun source => (source, stfId) := by
          rw [List.map_map]
          exact List.map_congr_left fun a ha => Prod.ext rfl (hcollected.ids a ha)
        rw [hsame] at hpairs
        exact List.Nodup.of_map _ hpairs
      · intro source hmem
        obtain ⟨a, ha, rfl⟩ := List.mem_map.mp hmem
        exact hsources a (hcollected.arrived.subset ha)
      · rw [List.length_map, arrivals, List.length_map, hlen]
  | discarded stfId tfBuf now =>
      obtain ⟨hlen, ⟨ticks, hcollected, -⟩, hexpired⟩ := hevent
      exact ⟨hlen, hcollected.ids, hcollected.arrived, hexpired⟩

/-- Two sources of time frame 7, the second one arriving in a later call that goes
through the buffer backwards. -/
theorem time_frame_building_sound_two_sources :
    let first : Arrival :=
      ⟨0, [SubTimeFrame.Header.encode { timeFrameId := 7, femId := 0x20 }, List.replicate 16 0]⟩
    let second : Arrival :=
      ⟨1, [SubTimeFrame.Header.encode { timeFrameId := 7, femId := 0x21 }, List.replicate 16 1]⟩
    let inputs : List Input :=
      [⟨some first, id, fun _ => .refl _⟩, ⟨none, id, fun _ => .refl _⟩,
        ⟨some second, List.reverse, List.reverse_perm⟩]
    ∃ s, run { fNumSource := 2 } (fun n => (n : Int)) {} inputs = .ok s ∧
      (∀ event ∈ s.events, event.Correct { fNumSource := 2 } (receivedBy inputs)) ∧
      (receivedBy inputs).Perm (s.sent ++ buffered s.fTFBuffer ++ s.discarded) ∧
      (s.sent ++ buffered s.fTFBuffer ++ s.discarded).Nodup := by
  intro first second inputs
  have hreceived : receivedBy inputs = [first, second] := rfl
  refine time_frame_building_sound (fun _ _ => Int.ofNat_le.mpr) (by decide) inputs ?_ ?_ ?_
  · rw [hreceived]
    intro a ha
    cases List.mem_pair.mp ha with
    | inl heq =>
        subst heq
        exact ⟨by decide, by decide⟩
    | inr heq =>
        subst heq
        exact ⟨by decide, by decide⟩
  · rw [hreceived]
    decide
  · rw [hreceived]
    decide

end TimeFrameBuilder
end Userworks
