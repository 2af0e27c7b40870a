import Userworks.TriggerView.Book
import Mathlib.Data.List.TakeDrop

/-!
A trigger message of the filter as the trigger view books it.

The view compares the number of entries with the size of one entry, so a short
message loses its type. The number of entries itself comes back from the 32-bit
length field while the message is short enough, and a time is kept in an `int`.
-/
namespace Userworks
namespace TriggerView

/-- The number of entries that `bookData` computes for a message of `n` times. -/
def announcedCount (n : Nat) : BitVec 32 :=
  (((BitVec.ofNat 32 (16 + n * 8)).setWidth 64 - BitVec.ofNat 64 Filter.TrgTimeHeader.size) /
    BitVec.ofNat 64 Filter.TrgTime.size).setWidth 32

/-- The numbers of times that come back from the length field: those whose message
fits it, and two at the very end where the wrapped length is below the header. -/
def CountKept (n : Nat) : Prop :=
  16 + 8 * n < 2 ^ 32 ∨ n = 2 ^ 32 - 2 ∨ n = 2 ^ 32 - 1

theorem announcedCount_eq_iff (n : Nat) : (announcedCount n).toNat = n ↔ CountKept n := by
  have hcount : (announcedCount n).toNat =
      (2 ^ 64 - 16 + (16 + n * 8) % 2 ^ 32) % 2 ^ 64 / 8 % 2 ^ 32 := by
    simp only [announcedCount, Filter.TrgTimeHeader.size, Filter.TrgTime.size,
      BitVec.toNat_setWidth, BitVec.toNat_udiv, BitVec.toNat_sub, BitVec.toNat_ofNat]
    rw [Nat.mod_eq_of_lt (b := 2 ^ 64) (by omega : (16 + n * 8) % 2 ^ 32 < 2 ^ 64)]
  have hsplit := Nat.div_add_mod (16 + n * 8) (2 ^ 32)
  have hrest := Nat.mod_lt (16 + n * 8) (show 0 < 2 ^ 32 by decide)
  rw [hcount, CountKept]
  generalize (16 + n * 8) / 2 ^ 32 = laps at hsplit
  generalize (16 + n * 8) % 2 ^ 32 = length at hsplit hrest
  by_cases hshort : length < 16
  · have hvalue : (2 ^ 64 - 16 + length) % 2 ^ 64 / 8 % 2 ^ 32 = 2 ^ 32 - 2 + length / 8 := by
      omega
    rw [hvalue]
    omega
  · have hvalue : (2 ^ 64 - 16 + length) % 2 ^ 64 / 8 % 2 ^ 32 = (length - 16) / 8 := by
      omega
    rw [hvalue]
    omega

/-- A trigger message passes the dispatch to the decoder of its entries. -/
theorem bookData_trgTimeMessage (view : View) (ts : List (BitVec 32)) (trg_type : BitVec 32) :
    bookData view (LogicFilter.trgTimeMessage ts trg_type) =
      gHistTrig view (trgTimes ts trg_type) (announcedCount ts.length) := by
  have hmsg : LogicFilter.trgTimeMessage ts trg_type =
      Filter.TrgTimeHeader.encode { length := BitVec.ofNat 32 (16 + ts.length * 8) } ++
        trgTimes ts trg_type := LogicFilter.trgTimeMessage_eq ts trg_type
  have hlen := LogicFilter.length_trgTimeMessage ts trg_type
  have hdecode := Filter.TrgTimeHeader.decode_encode
    { length := BitVec.ofNat 32 (16 + ts.length * 8) } (trgTimes ts trg_type)
  rw [← hmsg] at hdecode
  have hmagic : field 8 0 (LogicFilter.trgTimeMessage ts trg_type) = Filter.TDC_MAGIC := by
    have hfield : (Filter.TrgTimeHeader.decode
        (LogicFilter.trgTimeMessage ts trg_type)).magic =
      field 8 0 (LogicFilter.trgTimeMessage ts trg_type) := rfl
    rw [← hfield, hdecode]
  have hdrop : (LogicFilter.trgTimeMessage ts trg_type).drop Filter.TrgTimeHeader.size =
      trgTimes ts trg_type := by
    rw [hmsg]
    exact List.drop_left' (Filter.TrgTimeHeader.length_encode _)
  rw [bookData]
  simp only [hmagic, hdrop, hdecode]
  rw [if_neg (by omega), if_neg (by decide), if_pos trivial,
    if_neg (by rw [hlen, Filter.TrgTimeHeader.size]; omega), announcedCount]

/-- What `gHistTrig` records for entries of one type. -/
theorem gHistTrig_trgTimes (view : View) {ts : List (BitVec 32)} (hts : ts ≠ [])
    (trg_type len : BitVec 32) :
    gHistTrig view (trgTimes ts trg_type) len =
      if len.toNat ≤ ts.length then
        .ok { view with
          gTrigTdc := view.gTrigTdc ++
            [⟨if len.toNat < 8 then 0xffffffff#32 else trg_type,
              (ts.take len.toNat).map BitVec.toInt⟩]
          gTrigTdc_isvalid := true }
      else .error .undefined := by
  have htop := @trgTimeAt_trgTimes ts trg_type 0 (List.length_pos_of_ne_nil hts)
  by_cases hle : len.toNat ≤ ts.length
  · simp only [gHistTrig, htop, bind, Except.bind, pure, Except.pure, Filter.TrgTime.size,
      trgTimesOf_trgTimes hle, if_pos hle]
    rfl
  · simp only [gHistTrig, htop, bind, Except.bind, trgTimesOf_beyond (Nat.lt_of_not_le hle),
      if_neg hle]

theorem map_toInt_eq_map_toNat_iff (ts : List (BitVec 32)) :
    ts.map BitVec.toInt = ts.map (fun t => (t.toNat : Int)) ↔ ∀ t ∈ ts, t.toNat < 2 ^ 31 := by
  rw [List.map_inj_left]
  refine forall₂_congr fun t _ => ?_
  have ht := t.isLt
  rw [BitVec.toInt_eq_toNat_cond]
  split <;> omega

/-- The message of a non-empty vector of times comes back as one record with its
type and times exactly when it holds eight times or has the type of an unknown
record, its length field keeps the count, and the times fit an `int`. -/
theorem bookData_message_iff {fId : BitVec 32} {sec usec : BitVec 64} {outParts : List Bytes}
    {fltdata : List (List (BitVec 32))} {elapse tf_id trg_type : BitVec 32} {i : Nat}
    {ts : List (BitVec 32)} {msg : Bytes} (hts : ts ≠ []) (hvector : fltdata[i]? = some ts)
    (hmsg : (LogicFilter.addFilterMessage fId sec usec outParts fltdata elapse tf_id
      trg_type).1[outParts.length + 1 + i]? = some msg) (view : View) :
    (∃ view', bookData view msg = .ok view' ∧
        view'.gTrigTdc = view.gTrigTdc ++ [⟨trg_type, ts.map fun t => (t.toNat : Int)⟩]) ↔
      (8 ≤ ts.length ∨ trg_type = 0xffffffff#32) ∧ CountKept ts.length ∧
        ∀ t ∈ ts, t.toNat < 2 ^ 31 := by
  have hthis : msg = LogicFilter.trgTimeMessage ts trg_type := by
    rw [LogicFilter.addFilterMessage_eq, List.getElem?_append_right (by omega),
      show outParts.length + 1 + i - outParts.length = i + 1 by omega, List.getElem?_cons_succ,
      List.getElem?_map, hvector, Option.map_some, Option.some_inj] at hmsg
    exact hmsg.symm
  rw [hthis, bookData_trgTimeMessage, gHistTrig_trgTimes view hts,
    ← announcedCount_eq_iff, ← map_toInt_eq_map_toNat_iff]
  constructor
  · rintro ⟨view', hbook, hrecord⟩
    split at hbook
    · rename_i hle
      rw [Except.ok.injEq] at hbook
      subst hbook
      rw [List.append_cancel_left_eq, List.cons.injEq, TrgTdc.mk.injEq] at hrecord
      obtain ⟨⟨htype, htimes⟩, -⟩ := hrecord
      have hcount := congrArg List.length htimes
      rw [List.length_map, List.length_map, List.length_take, Nat.min_eq_left hle] at hcount
      rw [hcount, List.take_length] at htimes
      rw [hcount] at htype
      refine ⟨?_, hcount, htimes⟩
      by_cases hshort : ts.length < 8
      · rw [if_pos hshort] at htype
        exact Or.inr htype.symm
      · exact Or.inl (by omega)
    · cases hbook
  · rintro ⟨htype, hcount, htimes⟩
    rw [hcount, if_pos (Nat.le_refl _)]
    refine ⟨_, rfl, ?_⟩
    rw [List.take_length, htimes]
    cases htype with
    | inl hlong =>
        rw [if_neg (by omega)]
    | inr heq =>
        subst heq
        rw [ite_self]

/-- Eight trigger times of the type of the older trigger expressions. -/
theorem bookData_message_iff_eight :
    (∃ view', bookData {} (LogicFilter.trgTimeMessage [10, 20, 30, 40, 50, 60, 70, 80]
          0xaa000000) = .ok view' ∧
        view'.gTrigTdc = ({} : View).gTrigTdc ++ [⟨0xaa000000,
          [10, 20, 30, 40, 50, 60, 70, 80].map fun t : BitVec 32 => (t.toNat : Int)⟩]) ↔
      (8 ≤ [10, 20, 30, 40, 50, 60, 70, (80 : BitVec 32)].length ∨
          0xaa000000 = 0xffffffff#32) ∧
        CountKept [10, 20, 30, 40, 50, 60, 70, (80 : BitVec 32)].length ∧
        ∀ t ∈ [10, 20, 30, 40, 50, 60, 70, (80 : BitVec 32)], t.toNat < 2 ^ 31 :=
  @bookData_message_iff 7 1700000000 250000 [] [[10, 20, 30, 40, 50, 60, 70, 80]] 12 1
    0xaa000000 0 _ _ (by decide) rfl (by rw [LogicFilter.addFilterMessage_eq]; rfl) {}

/-- A message of one trigger time is booked, but not with its type. -/
theorem one_trigger_time_loses_type :
    ∃ msg, (LogicFilter.addFilterMessage 7 1700000000 250000 [] [[100]] 12 1
        0xaa000000).1[1]? = some msg ∧
      ¬ ∃ view', bookData {} msg = .ok view' ∧
        view'.gTrigTdc = ({} : View).gTrigTdc ++ [⟨0xaa000000, [100]⟩] := by
  refine ⟨LogicFilter.trgTimeMessage [100] 0xaa000000, ?_, ?_⟩
  · rw [LogicFilter.addFilterMessage_eq]
    rfl
  · have hbook : bookData {} (LogicFilter.trgTimeMessage [100] 0xaa000000) =
        .ok { gTrigTdc := [⟨0xffffffff, [100]⟩], gTrigTdc_isvalid := true } := by decide
    rintro ⟨view', hok, hrecord⟩
    rw [hbook, Except.ok.injEq] at hok
    subst hok
    revert hrecord
    decide

end TriggerView
end Userworks
