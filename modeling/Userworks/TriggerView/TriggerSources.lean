import Userworks.LogicFilter.SignalParser
import Userworks.LogicFilter.TriggerMarking
import Mathlib.Data.List.Induction

/-!
The numbers of the trigger signals, in the filter and in the viewer. Both read
the same text with the same parser and use the groups of at least three numbers.

The filter counts the groups it has entered. The viewer keeps the position of a
group among all groups, so a group that is too short puts the later ones off.
-/
namespace Userworks

namespace LogicFilter

/-- The loop of `InitTask` that registers the signals of one trigger. -/
def enterSignal {Map : Type} (trg : Trigger Map) (v : List (BitVec 32)) :
    Except Fault (Trigger Map) :=
  match v with
  | fem :: ch :: offset :: _ => trg.entry fem ch.toInt offset.toInt
  | _ => .ok trg

def registerSignals {Map : Type} (trg : Trigger Map) (signals : List (List (BitVec 32))) :
    Except Fault (Trigger Map) :=
  signals.foldlM enterSignal trg.clearEntry

end LogicFilter

namespace TriggerView

/-- A `signal_id`. -/
structure SignalId where
  index : Int
  module : BitVec 32
  channel : Int
  offset : Int

/-- One round of the loop in `gHistWindowInit`. -/
def addSource (g_trg_sources : List SignalId) (group : List (BitVec 32) × Nat) : List SignalId :=
  match group.1 with
  | module :: channel :: offset :: _ =>
      g_trg_sources ++
        [{ index := group.2, module, channel := channel.toInt, offset := offset.toInt }]
  | _ => g_trg_sources

/-- The sources that `gHistWindowInit` leaves in `g_trg_sources`. -/
def gHistWindowInit (signals : List (List (BitVec 32))) : List SignalId :=
  signals.zipIdx.foldl addSource []

/-- A group that names a signal. -/
def Full (group : List (BitVec 32)) : Prop := 3 ≤ group.length

instance (group : List (BitVec 32)) : Decidable (Full group) :=
  inferInstanceAs (Decidable (3 ≤ group.length))

/-- The number of signals among groups. -/
def fullCount (signals : List (List (BitVec 32))) : Nat :=
  signals.countP fun group => decide (Full group)

/-- What the two loops do in the round of one group: the viewer adds a source, the
filter gives the signal the bit `n`. -/
structure Numbered {Map : Type} (trg : Trigger Map) (signals : List (List (BitVec 32)))
    (i : Nat) (sig : SignalId) (n : Nat) : Prop where
  source : gHistWindowInit (signals.take (i + 1)) = gHistWindowInit (signals.take i) ++ [sig]
  bit : ∃ before after, LogicFilter.registerSignals trg (signals.take i) = .ok before ∧
    LogicFilter.registerSignals trg (signals.take (i + 1)) = .ok after ∧
    after.fEntryChBit sig.module = before.fEntryChBit sig.module ++ [1#32 <<< n]
  room : n < 32

variable {Map : Type}

theorem fullCount_concat (signals : List (List (BitVec 32))) (v : List (BitVec 32)) :
    fullCount (signals ++ [v]) = fullCount signals + if Full v then 1 else 0 := by
  simp [fullCount, List.countP_append, List.countP_singleton]

theorem gHistWindowInit_concat (signals : List (List (BitVec 32))) (v : List (BitVec 32)) :
    gHistWindowInit (signals ++ [v]) = addSource (gHistWindowInit signals) (v, signals.length) := by
  simp [gHistWindowInit, List.zipIdx_append]

theorem registerSignals_concat (trg : Trigger Map) (signals : List (List (BitVec 32)))
    (v : List (BitVec 32)) :
    LogicFilter.registerSignals trg (signals ++ [v]) =
      LogicFilter.registerSignals trg signals >>= fun t => LogicFilter.enterSignal t v := by
  simp [LogicFilter.registerSignals]

theorem exists_of_full {v : List (BitVec 32)} (h : Full v) :
    ∃ module channel offset rest, v = module :: channel :: offset :: rest := by
  match v, h with
  | module :: channel :: offset :: rest, _ => exact ⟨module, channel, offset, rest, rfl⟩

theorem enterSignal_full {t : Trigger Map} {v : List (BitVec 32)} (h : Full v)
    (hroom : t.fEntryCounts < 32) :
    ∃ t', LogicFilter.enterSignal t v = .ok t' ∧ t'.fEntryCounts = t.fEntryCounts + 1 ∧
      t'.fEntryChBit (v.headD 0) = t.fEntryChBit (v.headD 0) ++ [1#32 <<< t.fEntryCounts] := by
  obtain ⟨module, channel, offset, rest, rfl⟩ := exists_of_full h
  exact ⟨_, if_pos hroom, rfl, if_pos rfl⟩

theorem enterSignal_not_full (t : Trigger Map) {v : List (BitVec 32)} (h : ¬ Full v) :
    LogicFilter.enterSignal t v = .ok t := by
  match v, h with
  | [], _ | [_], _ | [_, _], _ => rfl
  | _ :: _ :: _ :: _, h => exact absurd (Nat.le_add_left 3 _) h

/-- After any groups the next bit is the number of signals among them. -/
theorem registerSignals_counts (trg : Trigger Map) (signals : List (List (BitVec 32)))
    (hfew : fullCount signals ≤ 32) :
    ∃ t, LogicFilter.registerSignals trg signals = .ok t ∧ t.fEntryCounts = fullCount signals := by
  induction signals using List.reverseRecOn with
  | nil => exact ⟨trg.clearEntry, rfl, rfl⟩
  | append_singleton signals v ih =>
      rw [fullCount_concat] at hfew
      obtain ⟨t, hrun, hcounts⟩ := ih (by omega)
      rw [registerSignals_concat, hrun, fullCount_concat]
      by_cases hfull : Full v
      · rw [if_pos hfull] at hfew ⊢
        obtain ⟨t', henter, hnext, -⟩ := enterSignal_full (t := t) hfull (by omega)
        exact ⟨t', henter, by rw [hnext, hcounts]⟩
      · rw [if_neg hfull]
        exact ⟨t, enterSignal_not_full t hfull, hcounts⟩

theorem fullCount_take_lt {signals : List (List (BitVec 32))} {i : Nat} {v : List (BitVec 32)}
    (hv : signals[i]? = some v) (hfull : Full v) :
    fullCount (signals.take i) < fullCount signals := by
  have hle : fullCount (signals.take (i + 1)) ≤ fullCount signals :=
    (List.take_sublist _ _).countP_le
  rw [List.take_add_one, hv, Option.toList_some, fullCount_concat, if_pos hfull] at hle
  omega

/-- The viewer stores the position of a group, the filter takes the bit of its rank. -/
theorem numbered (trg : Trigger Map) {signals : List (List (BitVec 32))}
    (hfew : fullCount signals ≤ 32) {i : Nat} {v : List (BitVec 32)} (hv : signals[i]? = some v)
    (hfull : Full v) :
    ∃ sig, Numbered trg signals i sig (fullCount (signals.take i)) ∧ sig.index = i := by
  have hlt := fullCount_take_lt hv hfull
  have hi : i < signals.length := (List.getElem?_eq_some_iff.mp hv).1
  have hnext : signals.take (i + 1) = signals.take i ++ [v] := by
    rw [List.take_add_one, hv, Option.toList_some]
  obtain ⟨t, hrun, hcounts⟩ := registerSignals_counts trg (signals.take i) (by omega)
  obtain ⟨t', henter, -, hbit⟩ := enterSignal_full (t := t) hfull (by omega)
  obtain ⟨module, channel, offset, rest, rfl⟩ := exists_of_full hfull
  refine ⟨⟨i, module, channel.toInt, offset.toInt⟩, ⟨?_, ⟨t, t', hrun, ?_, ?_⟩, by omega⟩, rfl⟩
  · rw [hnext, gHistWindowInit_concat, List.length_take_of_le (Nat.le_of_lt hi)]
    rfl
  · rw [hnext, registerSignals_concat, hrun]
    exact henter
  · rw [← hcounts]
    exact hbit

theorem Numbered.unique {trg : Trigger Map} {signals : List (List (BitVec 32))} {i : Nat}
    {sig sig' : SignalId} {n n' : Nat} (h : Numbered trg signals i sig n)
    (h' : Numbered trg signals i sig' n') : sig = sig' ∧ n = n' := by
  have hsig : sig = sig' := by
    have heq := h.source.symm.trans h'.source
    exact List.cons.inj (List.append_cancel_left heq) |>.1
  subst hsig
  obtain ⟨before, after, hbefore, hafter, hbit⟩ := h.bit
  obtain ⟨before', after', hbefore', hafter', hbit'⟩ := h'.bit
  rw [hbefore] at hbefore'
  rw [hafter] at hafter'
  cases hbefore'
  cases hafter'
  have heq := List.cons.inj (List.append_cancel_left (hbit.symm.trans hbit')) |>.1
  refine ⟨rfl, ?_⟩
  have hn := congrArg (fun b : BitVec 32 => b.getLsbD n) heq
  simp [h.room] at hn
  omega

/-- A position is a rank when all groups before it are signals. -/
theorem eq_fullCount_take_iff {signals : List (List (BitVec 32))} {j : Nat}
    (hj : j < signals.length) :
    fullCount (signals.take j) = j ↔ ∀ (i : Nat) v, i < j → signals[i]? = some v → Full v := by
  have hlength : (signals.take j).length = j := List.length_take_of_le (Nat.le_of_lt hj)
  rw [fullCount]
  conv_lhs => rhs; rw [← hlength]
  rw [List.countP_eq_length]
  constructor
  · intro h i v hi hv
    refine of_decide_eq_true (h v (List.mem_of_getElem? (i := i) ?_))
    rw [List.getElem?_take_of_lt hi, hv]
  · intro h v hv
    obtain ⟨i, hi⟩ := List.mem_iff_getElem?.mp hv
    have hij : i < j := by
      have hbound := (List.getElem?_eq_some_iff.mp hi).1
      omega
    rw [List.getElem?_take_of_lt hij] at hi
    exact decide_eq_true (h i v hij hi)

/-- For every text of at most 32 signals: each signal has the same number in the
viewer and in the filter exactly when no group that is too short stands in front of
a signal. -/
theorem signals_numbered_alike_iff (trg : Trigger TriggerMap) (text : Text)
    (hfew : fullCount (SignalParser.parsing text) ≤ 32) :
    (∀ (i : Nat) v, (SignalParser.parsing text)[i]? = some v → Full v →
        ∃ sig n, Numbered trg (SignalParser.parsing text) i sig n ∧ sig.index = n) ↔
      ∀ (i j : Nat) v w, i < j → (SignalParser.parsing text)[i]? = some v →
        (SignalParser.parsing text)[j]? = some w → Full w → Full v := by
  constructor
  · intro h i j v w hij hv hw hfull
    obtain ⟨sig, n, hnumbered, hsame⟩ := h j w hw hfull
    obtain ⟨sig', hrank, hindex⟩ := numbered trg hfew hw hfull
    obtain ⟨rfl, rfl⟩ := hnumbered.unique hrank
    have hj : j < (SignalParser.parsing text).length := (List.getElem?_eq_some_iff.mp hw).1
    exact (eq_fullCount_take_iff hj).mp (by omega) i v hij hv
  · intro h j w hw hfull
    obtain ⟨sig, hrank, hindex⟩ := numbered trg hfew hw hfull
    have hj : j < (SignalParser.parsing text).length := (List.getElem?_eq_some_iff.mp hw).1
    refine ⟨sig, _, hrank, ?_⟩
    rw [hindex, (eq_fullCount_take_iff hj).mpr fun i v hi hv => h i j v w hi hv hw hfull]

/-- Two signals, the short group behind them. -/
theorem signals_numbered_alike_iff_short_last :
    (∀ (i : Nat) v, (SignalParser.parsing "(0x20 5 0) (0x21 6 -2) (7)".toList)[i]? = some v →
        Full v → ∃ sig n, Numbered ({ fTMap := {} } : Trigger TriggerMap)
          (SignalParser.parsing "(0x20 5 0) (0x21 6 -2) (7)".toList) i sig n ∧ sig.index = n) ↔
      ∀ (i j : Nat) v w, i < j →
        (SignalParser.parsing "(0x20 5 0) (0x21 6 -2) (7)".toList)[i]? = some v →
        (SignalParser.parsing "(0x20 5 0) (0x21 6 -2) (7)".toList)[j]? = some w →
        Full w → Full v :=
  signals_numbered_alike_iff { fTMap := {} } _ (by decide)

/-- Behind a group of two numbers the viewer stores 1 for the signal that the filter
gives bit 0. -/
theorem short_group_shifts_index :
    (gHistWindowInit (SignalParser.parsing "(0x20 5) (0x21 6 0)".toList)).map SignalId.index =
        [1] ∧
      ∃ t, LogicFilter.registerSignals ({ fTMap := {} } : Trigger TriggerMap)
          (SignalParser.parsing "(0x20 5) (0x21 6 0)".toList) = .ok t ∧
        t.fEntryChBit 0x21 = [1#32 <<< 0] :=
  ⟨by decide, _, rfl, rfl⟩

end TriggerView
end Userworks
