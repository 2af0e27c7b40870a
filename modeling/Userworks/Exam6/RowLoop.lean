import Userworks.Exam6.MessageRows

/-!
The row loop of the filter as a list of writes to the keep flags.

Which flags a row clears depends on its blocks and on whether it has hits, and
not on the flags, so the loop is one sequence of writes. It is defined exactly
when every position lies in the frame.
-/
namespace Userworks
namespace Exam6
namespace FltTrig

open LogicFilter (HeartbeatMessage SubFrame frameParts)

/-- The flag of the message behind a data message is cleared as well. -/
def RemovesNext (f : FltTrig) : Prop := (f.fSplitMethod = 0 ∨ f.fSplitMethod = 1) ∧ f.fIsRemoveHB

instance (f : FltTrig) : Decidable f.RemovesNext := inferInstanceAs (Decidable (_ ∧ _))

/-- The flags that are cleared at a block of a row without hits. -/
def clearedBy (f : FltTrig) (dbl : DataBlock) : List Nat :=
  if 0 < dbl.msg_index ∧ dbl.is_HB = false then
    (if dbl.type ≠ SubTimeFrame.NULDEV then [dbl.msg_index.toNat] else []) ++
      if f.RemovesNext then [dbl.msg_index.toNat + 1] else []
  else []

theorem clearFlagIf_eq (condition : Prop) [Decidable condition] (flags : List Bool) (k : Nat) :
    clearFlagIf condition flags k = clearFlags flags (if condition then [k] else []) := by
  rw [clearFlagIf]
  by_cases h : condition
  · simp [h, clearFlags]
  · simp [h, clearFlags]
    rfl

theorem clearBlock_eq (f : FltTrig) (flags : List Bool) (dbl : DataBlock) :
    f.clearBlock flags dbl = clearFlags flags (f.clearedBy dbl) := by
  rw [clearBlock, clearedBy]
  split
  · rw [clearFlags_append, clearFlagIf_eq]
    congr 1
    funext flags
    exact clearFlagIf_eq f.RemovesNext flags _
  · rfl

theorem foldlM_clearBlock (f : FltTrig) (flags : List Bool) (dbls : List DataBlock) :
    dbls.foldlM f.clearBlock flags = clearFlags flags (dbls.flatMap f.clearedBy) := by
  induction dbls generalizing flags with
  | nil => rfl
  | cons dbl dbls ih =>
      rw [List.foldlM_cons, clearBlock_eq, List.flatMap_cons, clearFlags_append]
      congr 1
      funext flags
      exact ih flags

section Rows

variable (f : FltTrig) (block_map : List (List DataBlock)) (inParts : List Bytes)

/-- The trigger before row `i`. -/
def trigBefore (i : Nat) : Trigger TriggerMap :=
  (List.range i).foldl (scanRow block_map inParts) f.fTrig

/-- The number of hits in row `i`. -/
def nhits (i : Nat) : Nat :=
  (scanRow block_map inParts (f.trigBefore block_map inParts i) i).fHits.length

theorem trigBefore_succ (i : Nat) :
    f.trigBefore block_map inParts (i + 1) =
      scanRow block_map inParts (f.trigBefore block_map inParts i) i := by
  rw [trigBefore, List.range_succ, List.foldl_append]
  rfl

def clearedInRow (i : Nat) : List Nat :=
  if f.nhits block_map inParts i = 0 then (row block_map i).flatMap f.clearedBy else []

theorem runRow_eq (flags : List Bool) (totalhits i : Nat) :
    f.runRow block_map inParts
        { fTrig := f.trigBefore block_map inParts i, flag_sending := flags, totalhits := totalhits }
        i =
      (clearFlags flags (f.clearedInRow block_map inParts i)).map fun flags =>
        { fTrig := f.trigBefore block_map inParts (i + 1)
          flag_sending := flags
          totalhits := totalhits + f.nhits block_map inParts i } := by
  rw [runRow, clearedInRow, trigBefore_succ, nhits]
  split
  · rw [foldlM_clearBlock]
  · rfl

theorem foldlM_runRow (flags : List Bool) (n : Nat) :
    (List.range n).foldlM (f.runRow block_map inParts) { fTrig := f.fTrig, flag_sending := flags } =
      (clearFlags flags ((List.range n).flatMap (f.clearedInRow block_map inParts))).map
        fun flags =>
          { fTrig := f.trigBefore block_map inParts n
            flag_sending := flags
            totalhits := ((List.range n).map (f.nhits block_map inParts)).sum } := by
  induction n with
  | zero => rfl
  | succ n ih =>
      rw [List.range_succ, List.foldlM_append, ih, List.flatMap_append, clearFlags_append]
      cases clearFlags flags ((List.range n).flatMap (f.clearedInRow block_map inParts)) with
      | error fault => rfl
      | ok flags =>
          have hlast := f.runRow_eq block_map inParts flags
            ((List.range n).map (f.nhits block_map inParts)).sum n
          simp only [Except.map, Except.bind, List.foldlM_cons, List.foldlM_nil, bind_pure,
            List.map_append, List.sum_append, List.flatMap_cons, List.flatMap_nil, List.append_nil,
            List.map_cons, List.map_nil, List.sum_cons, List.sum_nil, Nat.add_zero] at hlast ⊢
          exact hlast

end Rows

/-- All writes of the row loop. -/
def clearedInRows (f : FltTrig) (inParts : List Bytes) : List Nat :=
  let block_map := makeBlockMap f.fSplitMethod inParts
  (List.range (minBlockCount block_map)).flatMap (f.clearedInRow block_map inParts)

/-- The row loop ends with the flags cleared, or one of them is not in the frame. -/
theorem runRows_eq (f : FltTrig) (inParts : List Bytes) :
    f.runRows inParts =
      if ∀ j ∈ f.clearedInRows inParts, j < inParts.length then
        let block_map := makeBlockMap f.fSplitMethod inParts
        let bsize_min := minBlockCount block_map
        .ok {
          fTrig := f.trigBefore block_map inParts bsize_min
          flag_sending :=
            clearedFlags (List.replicate inParts.length true) (f.clearedInRows inParts)
          totalhits := ((List.range bsize_min).map (f.nhits block_map inParts)).sum }
      else .error .undefined := by
  rw [runRows, foldlM_runRow, ← clearedInRows, clearFlags_eq, List.length_replicate]
  split <;> rfl

/-! A trigger without signals. -/

theorem foldl_markBlock_of_no_signal {t : Trigger TriggerMap} (h : t.fEntryCh = fun _ => [])
    (inParts : List Bytes) (dbls : List DataBlock) :
    dbls.foldl (markBlock inParts) t = t := by
  induction dbls with
  | nil => rfl
  | cons dbl dbls ih =>
      have hmark : markBlock inParts t dbl = t := by
        rw [markBlock]
        split
        · rw [Trigger.mark, h]
          rfl
        · rfl
      rw [List.foldl_cons, hmark, ih]

theorem fHits_scanRow_of_no_signal {t : Trigger TriggerMap} (h : t.fEntryCh = fun _ => [])
    (block_map : List (List DataBlock)) (inParts : List Bytes) (i : Nat) :
    (scanRow block_map inParts t i).fHits = [] := by
  rw [scanRow, foldl_markBlock_of_no_signal (t := t.cleanUpTimeRegion) h]
  simp [Trigger.scan, Trigger.cleanUpTimeRegion, risingEdges]

theorem fEntryCh_trigBefore_of_no_signal {f : FltTrig} (h : f.fTrig.fEntryCh = fun _ => [])
    (block_map : List (List DataBlock)) (inParts : List Bytes) (i : Nat) :
    (f.trigBefore block_map inParts i).fEntryCh = fun _ => [] := by
  induction i with
  | zero => exact h
  | succ i ih =>
      rw [trigBefore_succ, scanRow,
        foldl_markBlock_of_no_signal (t := (f.trigBefore block_map inParts i).cleanUpTimeRegion) ih]
      exact ih

/-- It has no hits in any row. -/
theorem nhits_of_no_signal {f : FltTrig} (h : f.fTrig.fEntryCh = fun _ => [])
    (block_map : List (List DataBlock)) (inParts : List Bytes) (i : Nat) :
    f.nhits block_map inParts i = 0 := by
  rw [nhits, fHits_scanRow_of_no_signal (fEntryCh_trigBefore_of_no_signal h block_map inParts i)]
  rfl

/-- So every row clears flags. -/
theorem clearedInRows_of_no_signal {f : FltTrig} (h : f.fTrig.fEntryCh = fun _ => [])
    (inParts : List Bytes) :
    f.clearedInRows inParts =
      let block_map := makeBlockMap f.fSplitMethod inParts
      (List.range (minBlockCount block_map)).flatMap fun i =>
        (row block_map i).flatMap f.clearedBy := by
  have hrow : f.clearedInRow (makeBlockMap f.fSplitMethod inParts) inParts =
      fun i => (row (makeBlockMap f.fSplitMethod inParts) i).flatMap f.clearedBy := by
    funext i
    rw [clearedInRow, if_pos (nhits_of_no_signal h _ _ i)]
  rw [clearedInRows, hrow]

end FltTrig
end Exam6
end Userworks
