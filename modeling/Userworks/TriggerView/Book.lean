import Userworks.LogicFilter.FilterMessage
import Userworks.Lib.Text

/-!
Booking of messages in the trigger view: the dispatch on the magic word and the
decoding of trigger messages.

Only the record lists and the source of the current sub time frame are kept.
Histograms, and the entry lists that heartbeat messages fill, are not modelled.
Reading past the end of a message is undefined.
-/
namespace Userworks
namespace TriggerView

/-- The trigger times of one message. -/
structure TrgTdc where
  trg_type : BitVec 32
  tdc4n : List Int
  deriving DecidableEq

structure View where
  gTrigTdc : List TrgTdc := []
  gTrigTdc_isvalid : Bool := false
  fFEMId : BitVec 32 := 0
  fFeType : Int := 0
  deriving DecidableEq

/-- `pdata + i` read as a time and a type. -/
def trgTimeAt (pdata : Bytes) (i : Nat) : Except Fault Filter.TrgTime :=
  if Filter.TrgTime.size * i + Filter.TrgTime.size ≤ pdata.length then
    .ok (Filter.TrgTime.decode (pdata.drop (Filter.TrgTime.size * i)))
  else .error .undefined

/-- The loop over the entries; the times of other types are left out. -/
def trgTimesOf (pdata : Bytes) (trg_type : BitVec 32) (len : Nat) : Except Fault (List Int) :=
  (List.range len).foldlM (fun tdc4n i => do
    let t ← trgTimeAt pdata i
    return if t.type = trg_type then tdc4n ++ [t.time.toInt] else tdc4n) []

/-- The recorded type is the one of the first entry, unless the number of entries
is below the size of an entry. -/
def gHistTrig (view : View) (pdata : Bytes) (len : BitVec 32) : Except Fault View := do
  let top ← trgTimeAt pdata 0
  let trg_type := top.type
  let recorded := if len.toNat < Filter.TrgTime.size then 0xffffffff#32 else trg_type
  let tdc4n ← trgTimesOf pdata trg_type len.toNat
  return { view with
    gTrigTdc := view.gTrigTdc ++ [⟨recorded, tdc4n⟩]
    gTrigTdc_isvalid := true }

def bookData (view : View) (pdata : Bytes) : Except Fault View :=
  let msg_magic := field 8 0 pdata
  if pdata.length < 8 then .error .undefined
  else if msg_magic = Filter.MAGIC then .ok view
  else if msg_magic = Filter.TDC_MAGIC then
    if pdata.length < Filter.TrgTimeHeader.size then .error .undefined
    else
      let pflttdc := Filter.TrgTimeHeader.decode pdata
      let len := (pflttdc.length.setWidth 64 - BitVec.ofNat 64 Filter.TrgTimeHeader.size) /
        BitVec.ofNat 64 Filter.TrgTime.size
      gHistTrig view (pdata.drop Filter.TrgTimeHeader.size) (len.setWidth 32)
  else if msg_magic = TimeFrame.MAGIC then .ok view
  else if msg_magic = SubTimeFrame.MAGIC then
    if pdata.length < 28 then .error .undefined
    else
      let pstf := SubTimeFrame.Header.decode pdata
      .ok { view with fFEMId := pstf.femId, fFeType := pstf.femType.toInt }
  else .ok view

/-- The entries of a trigger message behind its header. -/
def trgTimes (ts : List (BitVec 32)) (trg_type : BitVec 32) : Bytes :=
  ts.flatMap fun tdc => Filter.TrgTime.encode ⟨tdc, trg_type⟩

theorem length_trgTimes (ts : List (BitVec 32)) (trg_type : BitVec 32) :
    (trgTimes ts trg_type).length = 8 * ts.length := by
  induction ts with
  | nil => rfl
  | cons tdc ts ih =>
      rw [trgTimes] at ih ⊢
      rw [List.flatMap_cons, List.length_append, Filter.TrgTime.length_encode, ih,
        List.length_cons, Filter.TrgTime.size]
      omega

theorem drop_trgTimes (ts : List (BitVec 32)) (trg_type : BitVec 32) (i : Nat) :
    (trgTimes ts trg_type).drop (8 * i) = trgTimes (ts.drop i) trg_type := by
  induction ts generalizing i with
  | nil => simp [trgTimes]
  | cons tdc ts ih =>
      cases i with
      | zero => rfl
      | succ i =>
          have hskip : 8 * (i + 1) = (Filter.TrgTime.encode ⟨tdc, trg_type⟩).length + 8 * i := by
            rw [Filter.TrgTime.length_encode, Filter.TrgTime.size]; omega
          rw [List.drop_succ_cons, ← ih, trgTimes, List.flatMap_cons, hskip,
            List.drop_append]
          simp [trgTimes]

theorem trgTimeAt_trgTimes {ts : List (BitVec 32)} {trg_type : BitVec 32} {i : Nat}
    (hi : i < ts.length) :
    trgTimeAt (trgTimes ts trg_type) i = .ok ⟨ts[i], trg_type⟩ := by
  rw [trgTimeAt, Filter.TrgTime.size, length_trgTimes, if_pos (by omega), drop_trgTimes,
    List.drop_eq_getElem_cons hi, trgTimes, List.flatMap_cons, Filter.TrgTime.decode_encode]

theorem trgTimeAt_beyond {ts : List (BitVec 32)} {trg_type : BitVec 32} {i : Nat}
    (hi : ts.length ≤ i) :
    trgTimeAt (trgTimes ts trg_type) i = .error .undefined := by
  rw [trgTimeAt, Filter.TrgTime.size, length_trgTimes, if_neg (by omega)]

/-- Inside the message the loop collects the times in order. -/
theorem trgTimesOf_trgTimes {ts : List (BitVec 32)} {trg_type : BitVec 32} {len : Nat}
    (hlen : len ≤ ts.length) :
    trgTimesOf (trgTimes ts trg_type) trg_type len = .ok ((ts.take len).map BitVec.toInt) := by
  induction len with
  | zero => rfl
  | succ len ih =>
      have ih := ih (by omega)
      rw [trgTimesOf] at ih ⊢
      rw [List.range_succ, List.foldlM_append, ih]
      simp only [List.foldlM_cons, List.foldlM_nil, bind, Except.bind, pure, Except.pure,
        trgTimeAt_trgTimes (show len < ts.length from hlen), if_true]
      rw [List.take_succ_eq_append_getElem (show len < ts.length from hlen), List.map_append]
      rfl

/-- Past the end of the message the loop reads an entry that is not there. -/
theorem trgTimesOf_beyond {ts : List (BitVec 32)} {trg_type : BitVec 32} {len : Nat}
    (hlen : ts.length < len) :
    trgTimesOf (trgTimes ts trg_type) trg_type len = .error .undefined := by
  induction len with
  | zero => omega
  | succ len ih =>
      rw [trgTimesOf, List.range_succ, List.foldlM_append]
      cases Nat.lt_or_eq_of_le (Nat.le_of_lt_succ hlen) with
      | inl hlt =>
          have ih := ih hlt
          rw [trgTimesOf] at ih
          rw [ih]
          rfl
      | inr heq =>
          have hall := @trgTimesOf_trgTimes ts trg_type len (Nat.le_of_eq heq.symm)
          rw [trgTimesOf] at hall
          rw [hall]
          simp only [List.foldlM_cons, bind, Except.bind,
            trgTimeAt_beyond (Nat.le_of_eq heq)]

end TriggerView
end Userworks
