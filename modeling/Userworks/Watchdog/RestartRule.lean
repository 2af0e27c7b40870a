import Userworks.Lib.Streak
import Userworks.Watchdog.Processwatchdog

/-!
When the watchdog restarts a sampler.

The counter of the loop is the streak of the newest changes since it was last reset.
Resets come from the threshold only, and every way past the threshold is one, so that
a restart needs the given number of changes of one field in a row.
-/
namespace Userworks
namespace Processwatchdog

/-- The changes of all fields in the order in which the loop comes to them. -/
def changes : Option Hash → List Message → List (Text × Option Text)
  | _, [] => []
  | lastHash, m :: messages =>
      if m.heard then
        getChangedFields lastHash m.currentHash ++ changes (some m.currentHash) messages
      else changes lastHash messages

section Decision

/-- The table has a row for the field. -/
def Convertible (field : Text) : Prop :=
  ∃ number : Int, int10 field = some number ∧ 0 ≤ number ∧ number ≤ 34

/-- A sampler has the address that belongs to the field. -/
def SamplerFound (samplers : Samplers) (field : Text) : Prop :=
  ∃ number key, int10 field = some number ∧ RECBE_SAMPLER_KEY_PATTERN <+: key ∧
    (key, some (RECBE_SAMPLER_IP_PREFIX ++ str (number + 16))) ∈ samplers

/-- The script was called. A call whose argument the interpreter refuses counts, as it has
reset the counter; an `OSError` ends the process and is outside the model. -/
def Outcome.Executed : Outcome → Prop
  | .called actions _ => ∃ scriptArgs, Action.runScript scriptArgs ∈ actions
  | _ => False

theorem lookup_sampleTable (number : Int) :
    SAMPLE_TABLE.lookup number ≠ none ↔ 0 ≤ number ∧ number ≤ 34 := by
  have hkeys : SAMPLE_TABLE.map Prod.fst = (List.range 35).map Int.ofNat := by decide
  have hmem : SAMPLE_TABLE.lookup number ≠ none ↔ number ∈ SAMPLE_TABLE.map Prod.fst := by
    rw [← Option.isSome_iff_ne_none, List.lookup_isSome_iff, List.mem_map]
    simp only [beq_iff_eq]
    exact exists_congr fun row => and_congr_right fun _ => eq_comm
  rw [hmem, hkeys, List.mem_map]
  simp only [List.mem_range]
  constructor
  · intro hfound
    obtain ⟨k, hk, rfl⟩ := hfound
    exact ⟨Int.natCast_nonneg k, Int.ofNat_le.mpr (Nat.le_of_lt_succ hk)⟩
  · intro hrange
    exact ⟨number.toNat, by omega, Int.toNat_of_nonneg hrange.1⟩

/-- A field and its value become arguments of the script. -/
theorem makeScriptArgs_single (field value : Text) :
    makeScriptArgs [(field, value)] = (makeFieldArgs field).map (· ++ [value]) := by
  have hsorted : sortedItems [(field, value)] = [(field, value)] := rfl
  rw [makeScriptArgs, hsorted]
  cases hargs : makeFieldArgs field with
  | error what =>
      rw [List.foldlM_cons, hargs]
      rfl
  | ok args =>
      rw [List.foldlM_cons, hargs]
      rfl

theorem makeScriptArgs_ok_iff (field value : Text) :
    (∃ scriptArgs, makeScriptArgs [(field, value)] = .ok scriptArgs) ↔ Convertible field := by
  have hfield : (∃ scriptArgs, makeScriptArgs [(field, value)] = .ok scriptArgs) ↔
      ∃ pair, lookupIntegerPair field = .ok pair := by
    rw [makeScriptArgs_single, makeFieldArgs,
      if_pos (show USE_TABLE_LOOKUP = true from rfl)]
    cases lookupIntegerPair field with
    | error what =>
        constructor
        · intro h
          obtain ⟨_, h⟩ := h
          cases h
        · intro h
          obtain ⟨_, h⟩ := h
          cases h
    | ok pair => exact ⟨fun _ => ⟨pair, rfl⟩, fun _ => ⟨_, rfl⟩⟩
  rw [hfield, lookupIntegerPair, Convertible]
  cases int10 field with
  | none => simp
  | some number =>
      have htable := lookup_sampleTable number
      simp only [Option.some.injEq, exists_eq_left', ← htable]
      cases SAMPLE_TABLE.lookup number with
      | none => simp
      | some pair => simp

theorem findRecbeSamplerKeyByIp_ne_nil_iff (ipAddress : Text) (samplers : Samplers) :
    findRecbeSamplerKeyByIp ipAddress samplers ≠ [] ↔
      ∃ key, RECBE_SAMPLER_KEY_PATTERN <+: key ∧ (key, some ipAddress) ∈ samplers := by
  induction samplers with
  | nil => simp [findRecbeSamplerKeyByIp]
  | cons sampler samplers ih =>
      obtain ⟨key, value⟩ := sampler
      have hkeep : ∀ hother : ¬ (RECBE_SAMPLER_KEY_PATTERN <+: key ∧ value = some ipAddress),
          (∃ k, RECBE_SAMPLER_KEY_PATTERN <+: k ∧ (k, some ipAddress) ∈ samplers) ↔
            ∃ k, RECBE_SAMPLER_KEY_PATTERN <+: k ∧
              (k, some ipAddress) ∈ (key, value) :: samplers := by
        intro hother
        refine exists_congr fun k => and_congr_right fun hk => ?_
        rw [List.mem_cons]
        refine ⟨.inr, fun h => h.resolve_left fun heq => ?_⟩
        cases heq
        exact hother ⟨hk, rfl⟩
      rw [findRecbeSamplerKeyByIp]
      by_cases hpattern : RECBE_SAMPLER_KEY_PATTERN <+: key
      · rw [List.isPrefixOf_iff_prefix.mpr hpattern, if_neg (by decide)]
        by_cases hvalue : value = some ipAddress
        · obtain ⟨rest, rfl⟩ := hpattern
          have hname : (RECBE_SAMPLER_KEY_PATTERN ++ rest).drop RECBE_SAMPLER_KEY_PREFIX.length =
              "RecbeSampler-".toList ++ rest := rfl
          have hprefix : RECBE_SAMPLER_KEY_PREFIX.isPrefixOf
              (RECBE_SAMPLER_KEY_PATTERN ++ rest) = true := rfl
          rw [if_pos hvalue, if_pos hprefix, hname]
          refine ⟨fun _ => ⟨_, List.prefix_append _ rest, ?_⟩, fun _ => List.cons_ne_nil _ _⟩
          rw [hvalue]
          exact List.mem_cons_self
        · rw [if_neg hvalue, ih]
          exact hkeep fun hboth => hvalue hboth.2
      · have hskipped : RECBE_SAMPLER_KEY_PATTERN.isPrefixOf key = false :=
          Bool.eq_false_iff.mpr fun h => hpattern (List.isPrefixOf_iff_prefix.mp h)
        rw [hskipped, if_pos (by decide), ih]
        exact hkeep fun hboth => hpattern hboth.1

theorem makeRecbeSamplerInstance_ok_iff {field : Text} (h : Convertible field)
    (samplers : Samplers) :
    (∃ instances, makeRecbeSamplerInstance field samplers = .ok instances) ↔
      SamplerFound samplers field := by
  obtain ⟨number, hnumber, hlow, hhigh⟩ := h
  have hip : makeIpAddressFromField field =
      .ok (RECBE_SAMPLER_IP_PREFIX ++ str (number + 16)) := by
    rw [makeIpAddressFromField, hnumber]
    exact if_pos ⟨by omega, by omega⟩
  have hfound := findRecbeSamplerKeyByIp_ne_nil_iff
    (RECBE_SAMPLER_IP_PREFIX ++ str (number + 16)) samplers
  have hsampler : SamplerFound samplers field ↔ ∃ key, RECBE_SAMPLER_KEY_PATTERN <+: key ∧
      (key, some (RECBE_SAMPLER_IP_PREFIX ++ str (number + 16))) ∈ samplers := by
    simp only [SamplerFound, hnumber, Option.some.injEq, exists_and_left, exists_eq_left']
  rw [hsampler, ← hfound, makeRecbeSamplerInstance, hip]
  by_cases hnone :
      findRecbeSamplerKeyByIp (RECBE_SAMPLER_IP_PREFIX ++ str (number + 16)) samplers = []
  · simp [hnone, bind, Except.bind]
  · simp [hnone, bind, Except.bind, pure, Except.pure]

theorem decideOutcome_executed_iff {τ : Type} (threshold : Int) (count : Nat) (field : Text)
    (value : Option Text) (moment : Moment τ) :
    (decideOutcome threshold count field value moment).Executed ↔
      threshold ≤ count ∧ value ≠ none ∧ Convertible field ∧
        SamplerFound moment.samplers field := by
  rw [decideOutcome.eq_def]
  by_cases hbelow : (count : Int) < threshold
  · rw [if_pos hbelow]
    exact ⟨False.elim, fun h => absurd h.1 (by omega)⟩
  · rw [if_neg hbelow]
    cases value with
    | none => exact ⟨False.elim, fun h => absurd rfl h.2.1⟩
    | some value =>
        have hargs := makeScriptArgs_ok_iff field value
        dsimp only
        cases hscript : makeScriptArgs [(field, value)] with
        | error what =>
            rw [hscript] at hargs
            simp only [reduceCtorEq, exists_false, false_iff] at hargs
            simp only [hargs, false_and, and_false, iff_false]
            exact id
        | ok scriptArgs =>
            rw [hscript] at hargs
            have hconvertible := hargs.mp ⟨_, rfl⟩
            have hinstance := makeRecbeSamplerInstance_ok_iff hconvertible moment.samplers
            simp only [hconvertible, true_and, ← hinstance, ne_eq, reduceCtorEq,
              not_false_eq_true, Int.not_lt.mp hbelow]
            rw [runScriptWithRecbeSamplerStop.eq_def]
            cases makeRecbeSamplerInstance field moment.samplers with
            | error what => simp [Outcome.Executed]
            | ok instances => cases moment.raised <;> simp [Outcome.Executed]

end Decision

section History

variable {τ : Type}

def Event.change (e : Event τ) : Text × Option Text := (e.field, e.value)

/-- The change left the counter as it was. -/
def Outcome.isBelow : Outcome → Bool
  | .below => true
  | _ => false

theorem Outcome.isBelow_iff (outcome : Outcome) : outcome.isBelow = true ↔ outcome = .below := by
  cases outcome <;> simp [isBelow]

/-- The changes since the counter was last reset, the newest first. -/
def sinceReset (history : List (Event τ)) : List (Event τ) :=
  history.takeWhile fun e => e.outcome.isBelow

theorem sinceReset_cons (e : Event τ) (history : List (Event τ)) :
    sinceReset (e :: history) = if e.outcome.isBelow then e :: sinceReset history else [] := by
  rw [sinceReset, List.takeWhile_cons]
  split <;> rfl

variable [Sub τ] [LE τ] [DecidableLE τ] (timeout : τ)

/-- Two changes in a row are of the same field, and the gap between them is small. -/
def Alike (newer older : Event τ) : Prop :=
  newer.field = older.field ∧ newer.now - older.now ≤ timeout

instance : DecidableRel (Alike timeout) := fun _ _ => inferInstanceAs (Decidable (_ ∧ _))

/-- The last `n` changes are of the newest one's field, with small gaps between them. -/
structure InARow (n : Nat) (newest : Event τ) (older : List (Event τ)) : Prop where
  enough : n ≤ (newest :: older).length
  same : ∀ e ∈ (newest :: older).take n, e.field = newest.field
  close : List.IsChain (fun newer older => newer.now - older.now ≤ timeout)
    ((newest :: older).take n)

theorem le_streak_iff_inARow {n : Nat} (hn : 1 ≤ n) (newest : Event τ) (older : List (Event τ)) :
    n ≤ streak (Alike timeout) (newest :: older) ↔ InARow timeout n newest older := by
  obtain ⟨m, rfl⟩ := Nat.exists_eq_add_of_le' hn
  have hchain := isChain_same_and_iff Event.field
    (fun newer older : Event τ => newer.now - older.now ≤ timeout) newest (older.take m)
  rw [le_streak_iff, List.take_succ_cons]
  constructor
  · intro h
    obtain ⟨hsame, hclose⟩ := hchain.mp h.2
    exact ⟨h.1, hsame, hclose⟩
  · intro h
    exact ⟨h.enough, hchain.mpr ⟨h.same, h.close⟩⟩

variable (threshold : Int) (moments : Nat → Moment τ)

/-- The outcome that a change must have, given the history before it. -/
def Ruled (e : Event τ) (earlier : List (Event τ)) : Prop :=
  e.now = (moments earlier.length).now ∧
    e.outcome = decideOutcome threshold (streak (Alike timeout) (e :: sinceReset earlier)) e.field
      e.value (moments earlier.length)

/-- The counter of the loop and the history. -/
structure Counted (s : State τ) : Prop where
  field_eq : s.lastChangedField = s.history.head?.map Event.field
  time_eq : s.lastChangedTime = s.history.head?.map Event.now
  count_eq : s.consecutiveFieldCount = streak (Alike timeout) (sinceReset s.history)
  ruled : ∀ later e earlier, s.history = later ++ e :: earlier →
    Ruled timeout threshold moments e earlier

theorem counted_start : Counted timeout threshold moments ({} : State τ) where
  field_eq := rfl
  time_eq := rfl
  count_eq := rfl
  ruled := by
    intro later e earlier h
    cases later with
    | nil => cases h
    | cons _ _ => cases h

variable {timeout threshold moments}

/-- The counter after a change, before the threshold is looked at. -/
theorem Counted.streak_cons {s : State τ} (h : Counted timeout threshold moments s)
    (e : Event τ) :
    (if continues timeout s e.field e.now then s.consecutiveFieldCount + 1 else 1) =
      streak (Alike timeout) (e :: sinceReset s.history) := by
  rw [continues, h.field_eq, h.time_eq, h.count_eq]
  cases s.history with
  | nil => rfl
  | cons newest older =>
      rw [sinceReset_cons]
      cases hbelow : newest.outcome.isBelow with
      | false => simp [streak]
      | true =>
          have halike : (some newest.field == some e.field &&
              decide (e.now - newest.now ≤ timeout)) = decide (Alike timeout e newest) := by
            rw [Bool.eq_iff_iff, Bool.and_eq_true, beq_iff_eq, decide_eq_true_eq,
              decide_eq_true_eq, Option.some.injEq]
            exact and_congr_left fun _ => eq_comm
          simp only [List.head?_cons, Option.map_some, halike, decide_eq_true_eq, if_true, streak]

/-- The change that the body of the loop adds to the history. -/
theorem Counted.exists_event {s : State τ} (h : Counted timeout threshold moments s)
    (change : Text × Option Text) :
    ∃ e, e.change = change ∧ Ruled timeout threshold moments e s.history ∧
      (onChange threshold timeout moments s change).lastHash = s.lastHash ∧
      (onChange threshold timeout moments s change).history = e :: s.history ∧
      (onChange threshold timeout moments s change).lastChangedField = some e.field ∧
      (onChange threshold timeout moments s change).lastChangedTime = some e.now ∧
      (onChange threshold timeout moments s change).consecutiveFieldCount =
        if e.outcome = .below then streak (Alike timeout) (e :: sinceReset s.history) else 0 := by
  obtain ⟨field, value⟩ := change
  let moment := moments s.history.length
  let again := continues timeout s field moment.now
  let count := if again then s.consecutiveFieldCount + 1 else 1
  let e : Event τ :=
    { field, value, now := moment.now
      outcome := decideOutcome threshold count field value moment }
  have hcount : count = streak (Alike timeout) (e :: sinceReset s.history) := h.streak_cons e
  refine ⟨e, rfl, ⟨rfl, ?_⟩, rfl, rfl, ?_, rfl, ?_⟩
  · rw [← hcount]
  · change (if again then s.lastChangedField else some field) = some field
    cases hagain : again with
    | false => rfl
    | true =>
        rw [if_pos rfl]
        simp only [again, continues] at hagain
        split at hagain
        · cases hagain
        · rw [Bool.and_eq_true, beq_iff_eq] at hagain
          exact hagain.1
  · rw [← hcount]
    rfl

theorem Counted.onChange {s : State τ} (h : Counted timeout threshold moments s)
    (change : Text × Option Text) :
    Counted timeout threshold moments (onChange threshold timeout moments s change) := by
  obtain ⟨e, -, hruled, -, hhistory, hfield, htime, hcount⟩ := h.exists_event change
  refine ⟨by rw [hhistory, hfield]; rfl, by rw [hhistory, htime]; rfl, ?_, ?_⟩
  · rw [hhistory, hcount, sinceReset_cons]
    by_cases hbelow : e.outcome = .below
    · rw [if_pos hbelow, if_pos ((Outcome.isBelow_iff _).mpr hbelow)]
    · rw [if_neg hbelow, if_neg fun hb => hbelow ((Outcome.isBelow_iff _).mp hb)]
      rfl
  · intro later e' earlier hsplit
    rw [hhistory] at hsplit
    cases later with
    | nil =>
        cases hsplit
        exact hruled
    | cons _ later => exact h.ruled later e' earlier (List.cons.inj hsplit).2

theorem Counted.foldl {s : State τ} (h : Counted timeout threshold moments s)
    (list : List (Text × Option Text)) :
    Counted timeout threshold moments
        (list.foldl (Processwatchdog.onChange threshold timeout moments) s) ∧
      (list.foldl (Processwatchdog.onChange threshold timeout moments) s).lastHash = s.lastHash ∧
      (list.foldl (Processwatchdog.onChange threshold timeout moments) s).history.reverse.map
        Event.change = s.history.reverse.map Event.change ++ list := by
  induction list generalizing s with
  | nil => exact ⟨h, rfl, (List.append_nil _).symm⟩
  | cons change list ih =>
      obtain ⟨e, he, -, hhash, hhistory, -⟩ := h.exists_event change
      obtain ⟨hcounted, hkept, hchanges⟩ := ih (h.onChange change)
      refine ⟨hcounted, hkept.trans hhash, hchanges.trans ?_⟩
      rw [hhistory, List.reverse_cons, List.map_append, List.append_assoc, ← he]
      rfl

theorem Counted.run {s : State τ} (h : Counted timeout threshold moments s)
    (messages : List Message) :
    Counted timeout threshold moments (messages.foldl (onMessage threshold timeout moments) s) ∧
      (messages.foldl (onMessage threshold timeout moments) s).history.reverse.map Event.change =
        s.history.reverse.map Event.change ++ changes s.lastHash messages := by
  induction messages generalizing s with
  | nil => exact ⟨h, (List.append_nil _).symm⟩
  | cons m messages ih =>
      rw [List.foldl_cons, onMessage, changes]
      cases hheard : m.heard with
      | false => exact ih h
      | true =>
          have hnew : Counted timeout threshold moments { s with lastHash := some m.currentHash } :=
            ⟨h.field_eq, h.time_eq, h.count_eq, h.ruled⟩
          obtain ⟨hcounted, hhash, hchanges⟩ :=
            hnew.foldl (getChangedFields s.lastHash m.currentHash)
          obtain ⟨hrest, hlater⟩ := ih hcounted
          refine ⟨hrest, hlater.trans ?_⟩
          rw [hchanges, hhash, List.append_assoc]
          rfl

end History

/-- The script is called at a change exactly if its value is there, the field has a row
and a sampler, and the last `n` changes since the last reset are of its field with gaps
of at most `timeout`. The changes are all those of the snapshots. -/
theorem restart_rule {τ : Type} [Sub τ] [LE τ] [DecidableLE τ] [OfNat τ 0] (n : Nat)
    (hn : 1 ≤ n) (timeout : τ) (hpos : ¬ timeout ≤ 0) (moments : Nat → Moment τ)
    (messages : List Message) :
    ∃ s, main n timeout moments messages = .ok s ∧
      s.history.reverse.map Event.change = changes none messages ∧
      ∀ later e earlier, s.history = later ++ e :: earlier →
        e.now = (moments earlier.length).now ∧
        (e.outcome.Executed ↔ e.value ≠ none ∧ Convertible e.field ∧
          SamplerFound (moments earlier.length).samplers e.field ∧
          InARow timeout n e (sinceReset earlier)) := by
  obtain ⟨hcounted, hchanges⟩ := (counted_start timeout n moments).run messages
  refine ⟨_, ?_, hchanges, ?_⟩
  · rw [main, if_neg (by omega), if_neg hpos]
  · intro later e earlier hsplit
    obtain ⟨hnow, houtcome⟩ := hcounted.ruled later e earlier hsplit
    refine ⟨hnow, ?_⟩
    rw [houtcome, decideOutcome_executed_iff, Int.ofNat_le, le_streak_iff_inARow timeout hn]
    constructor
    · intro h
      exact ⟨h.2.1, h.2.2.1, h.2.2.2, h.1⟩
    · intro h
      exact ⟨h.2.2.2, h.1, h.2.1, h.2.2.1⟩

section Inputs

def lostSegments (value : Text) : Message where
  type := "message".toList
  data := "hset".toList
  currentHash := { items := [("4".toList, value)], nodup := List.nodup_singleton _ }

def oneSampler (now : Nat) : Moment Int where
  now := now
  samplers := [("parameters:RecbeSampler-7".toList, some "192.168.10.20".toList)]

/-- Two changes of field 4 one second apart. -/
theorem restart_rule_two_changes :
    ∃ s e earlier, main (2 : Nat) (3 : Int) oneSampler
        [lostSegments "1".toList, lostSegments "2".toList] = .ok s ∧
      s.history = e :: earlier ∧ e.outcome.Executed := by
  obtain ⟨s, hmain, -, hrule⟩ := restart_rule 2 (by decide) (3 : Int) (by decide) oneSampler
    [lostSegments "1".toList, lostSegments "2".toList]
  have hstate : s = [lostSegments "1".toList, lostSegments "2".toList].foldl
      (onMessage 2 (3 : Int) oneSampler) {} := by
    cases hmain
    rfl
  have hsplit : ∃ e earlier, s.history = e :: earlier ∧ e.field = "4".toList ∧
      e.value = some "2".toList ∧ earlier.length = 1 ∧
      InARow (3 : Int) 2 e (sinceReset earlier) := by
    subst hstate
    refine ⟨_, _, rfl, rfl, rfl, rfl, ⟨by decide, by decide, ?_⟩⟩
    exact List.isChain_cons_cons.mpr ⟨by decide, List.isChain_singleton _⟩
  obtain ⟨e, earlier, hhistory, hfield, hvalue, hlength, hrow⟩ := hsplit
  refine ⟨s, e, earlier, hmain, hhistory, (hrule [] e earlier hhistory).2.mpr ?_⟩
  rw [hfield, hvalue, hlength]
  have hsampler : SamplerFound (oneSampler 1).samplers "4".toList :=
    ⟨4, "parameters:RecbeSampler-7".toList, by decide, by decide, by decide⟩
  exact ⟨nofun, ⟨4, by decide, by decide, by decide⟩, hsampler, hrow⟩

end Inputs

end Processwatchdog
end Userworks
