import Userworks.LogicFilter.FrameHeaders
import Mathlib.Algebra.Order.BigOperators.Group.List

/-!
The filter block of a time frame: a header message and one message of trigger
times for each heartbeat frame.

The header is filled from a sum that is taken before the messages are made, and
that sum counts one `uint32_t` for a time where the messages hold a time and a
type. The length in the header is therefore the length of the block only when
there is no trigger time at all; the other announced numbers are right.
-/
namespace Userworks

/-- The bytes of a `std::vector<uint32_t>`. -/
def putU32s (vs : List (BitVec 32)) : Bytes := vs.flatMap (put 4)

theorem putU32s_append (us vs : List (BitVec 32)) :
    putU32s (us ++ vs) = putU32s us ++ putU32s vs :=
  List.flatMap_append

/-- The header through the other member of its union. -/
def Filter.TrgTimeHeader.u32data (h : TrgTimeHeader) : List (BitVec 32) :=
  (List.range 4).map fun i => field 4 (4 * i) h.encode

theorem Filter.TrgTimeHeader.putU32s_u32data (h : TrgTimeHeader) :
    putU32s h.u32data = h.encode := by
  have hlen : h.encode.length = 16 := h.length_encode
  have hwords : ∀ n ≤ 4,
      putU32s ((List.range n).map fun i => field 4 (4 * i) h.encode) = h.encode.take (4 * n) := by
    intro n hn
    induction n with
    | zero => rfl
    | succ n ih =>
        rw [List.range_succ, List.map_append, putU32s_append, ih (by omega)]
        simp only [putU32s, List.map_cons, List.map_nil, List.flatMap_cons, List.flatMap_nil,
          List.append_nil]
        rw [put_field 4 (4 * n) h.encode (by omega), Nat.mul_succ, List.take_add]
  rw [u32data, hwords 4 (by decide), List.take_of_length_le (by omega)]

namespace LogicFilter

/-- The message of one vector of trigger times. -/
def trgTimeMessage (v : List (BitVec 32)) (trg_type : BitVec 32) : Bytes :=
  let trg_time_header : Filter.TrgTimeHeader :=
    { length := BitVec.ofNat 32 (Filter.TrgTimeHeader.size + v.length * Filter.TrgTime.size) }
  putU32s (trg_time_header.u32data ++ v.flatMap fun tdc => [tdc, trg_type])

/-- The parts are appended to `outParts`; the result is the number of bytes they
add. `fId` is the worker number, `sec` and `usec` the clock readings. -/
def addFilterMessage (fId : BitVec 32) (sec usec : BitVec 64) (outParts : List Bytes)
    (fltdata : List (List (BitVec 32))) (elapse tf_id trg_type : BitVec 32) :
    List Bytes × BitVec 32 :=
  let (flt_datasize, totalhits) := fltdata.foldl
    (fun (flt_datasize, totalhits) v =>
      (flt_datasize + BitVec.ofNat 32 (v.length * 4 + Filter.TrgTimeHeader.size),
        totalhits + BitVec.ofNat 32 v.length)) (0#32, 0#32)
  let flt_len : BitVec 64 := flt_datasize.setWidth 64 + BitVec.ofNat 64 Filter.Header.size
  let fltHeader : Filter.Header := {
    magic := Filter.MAGIC
    length := flt_len.setWidth 32
    timeFrameId := tf_id
    numTrigs := totalhits
    workerId := fId
    numMessages := BitVec.ofNat 32 (1 + fltdata.length)
    elapseTime := elapse
    reserve := trg_type
    timeSec := sec
    timeUSec := usec }
  fltdata.foldl
    (fun (outParts, flt_data_len) v =>
      (outParts ++ [trgTimeMessage v trg_type],
        flt_data_len + BitVec.ofNat 32 (trgTimeMessage v trg_type).length))
    (outParts ++ [fltHeader.encode], BitVec.ofNat 32 Filter.Header.size)

theorem trgTimeMessage_eq (v : List (BitVec 32)) (trg_type : BitVec 32) :
    trgTimeMessage v trg_type =
      Filter.TrgTimeHeader.encode
          { length := BitVec.ofNat 32 (16 + v.length * 8) } ++
        v.flatMap fun tdc => Filter.TrgTime.encode ⟨tdc, trg_type⟩ := by
  simp only [trgTimeMessage]
  rw [putU32s_append, Filter.TrgTimeHeader.putU32s_u32data, putU32s, List.flatMap_assoc]
  rfl

@[simp] theorem length_trgTimeMessage (v : List (BitVec 32)) (trg_type : BitVec 32) :
    (trgTimeMessage v trg_type).length = 16 + 8 * v.length := by
  rw [trgTimeMessage_eq, List.length_append, Filter.TrgTimeHeader.length_encode,
    Filter.TrgTimeHeader.size, Nat.add_left_cancel_iff]
  induction v with
  | nil => rfl
  | cons tdc v ih =>
      rw [List.flatMap_cons, List.length_append, Filter.TrgTime.length_encode, ih,
        List.length_cons, Filter.TrgTime.size]
      omega

/-- The header that `addFilterMessage` writes, with its sums as numbers. -/
def filterHeader (fId : BitVec 32) (sec usec : BitVec 64) (fltdata : List (List (BitVec 32)))
    (elapse tf_id trg_type : BitVec 32) : Filter.Header where
  length := BitVec.ofNat 32 (56 + (fltdata.map fun v => v.length * 4 + 16).sum)
  timeFrameId := tf_id
  numTrigs := BitVec.ofNat 32 (fltdata.map List.length).sum
  workerId := fId
  numMessages := BitVec.ofNat 32 (1 + fltdata.length)
  elapseTime := elapse
  reserve := trg_type
  timeSec := sec
  timeUSec := usec

theorem foldl_append_singleton {α β : Type} (f : α → β) (xs : List α) (start : List β) :
    xs.foldl (fun ys x => ys ++ [f x]) start = start ++ xs.map f := by
  induction xs generalizing start with
  | nil => simp
  | cons x xs ih => simp [ih]

/-- Two accumulators of one loop that do not look at each other. -/
theorem foldl_prod {α β γ : Type} (f : β → α → β) (g : γ → α → γ) (xs : List α) (b : β)
    (c : γ) :
    xs.foldl (fun acc x => (f acc.1 x, g acc.2 x)) (b, c) = (xs.foldl f b, xs.foldl g c) := by
  induction xs generalizing b c with
  | nil => rfl
  | cons x xs ih => exact ih _ _

/-- The parts come out as the header followed by one message for each vector, in
order, and the result is their size. -/
theorem addFilterMessage_eq (fId : BitVec 32) (sec usec : BitVec 64) (outParts : List Bytes)
    (fltdata : List (List (BitVec 32))) (elapse tf_id trg_type : BitVec 32) :
    addFilterMessage fId sec usec outParts fltdata elapse tf_id trg_type =
      (outParts ++ ((filterHeader fId sec usec fltdata elapse tf_id trg_type).encode ::
          fltdata.map fun v => trgTimeMessage v trg_type),
        BitVec.ofNat 32 (56 + (fltdata.map fun v => 16 + 8 * v.length).sum)) := by
  have hlength : ((BitVec.ofNat 32 (fltdata.map fun v => v.length * 4 + 16).sum).setWidth 64 +
      BitVec.ofNat 64 56).setWidth 32 =
      BitVec.ofNat 32 (56 + (fltdata.map fun v => v.length * 4 + 16).sum) := by
    apply BitVec.eq_of_toNat_eq
    simp only [BitVec.toNat_setWidth, BitVec.toNat_add, BitVec.toNat_ofNat]
    omega
  have hsize := @foldl_add_ofNat 32 _ (fun v : List (BitVec 32) => v.length * 4 + 16) fltdata 0
  have hhits := @foldl_add_ofNat 32 _ (fun v : List (BitVec 32) => v.length) fltdata 0
  have hlen := @foldl_add_ofNat 32 _ (fun v : List (BitVec 32) => 16 + 8 * v.length) fltdata 56
  rw [Nat.zero_add] at hsize hhits
  rw [addFilterMessage]
  simp only [Filter.TrgTimeHeader.size, Filter.Header.size, length_trgTimeMessage]
  rw [foldl_prod
      (fun (sum : BitVec 32) (v : List (BitVec 32)) => sum + BitVec.ofNat 32 (v.length * 4 + 16))
      (fun (sum : BitVec 32) (v : List (BitVec 32)) => sum + BitVec.ofNat 32 v.length),
    foldl_prod (fun parts (v : List (BitVec 32)) => parts ++ [trgTimeMessage v trg_type])
      (fun (sum : BitVec 32) (v : List (BitVec 32)) => sum + BitVec.ofNat 32 (16 + 8 * v.length)),
    hsize, hhits, hlen, foldl_append_singleton, hlength, List.append_assoc, List.singleton_append]
  rfl

/-- What the header of a filter block announces about the messages of the block. -/
structure SelfDescribing (block : List Bytes) : Prop where
  length : (Filter.Header.decode (block.headD [])).length.toNat = (block.map List.length).sum
  numMessages : (Filter.Header.decode (block.headD [])).numMessages.toNat = block.length
  numTrigs : (Filter.Header.decode (block.headD [])).numTrigs.toNat =
    (block.tail.map fun msg =>
      (msg.length - Filter.TrgTimeHeader.size) / Filter.TrgTime.size).sum
  messages : ∀ msg ∈ block.tail, (Filter.TrgTimeHeader.decode msg).length.toNat = msg.length

theorem sum_messages_eq (fltdata : List (List (BitVec 32))) :
    (fltdata.map fun v => 16 + 8 * v.length).sum =
      (fltdata.map fun v => v.length * 4 + 16).sum + 4 * (fltdata.map List.length).sum := by
  induction fltdata with
  | nil => rfl
  | cons v fltdata ih =>
      simp only [List.map_cons, List.sum_cons, ih]
      omega

theorem length_le_sum_messages (fltdata : List (List (BitVec 32))) :
    fltdata.length ≤ (fltdata.map fun v => 16 + 8 * v.length).sum := by
  induction fltdata with
  | nil => exact Nat.zero_le _
  | cons v fltdata ih =>
      simp only [List.map_cons, List.sum_cons, List.length_cons]
      omega

section Block

variable (fId : BitVec 32) (sec usec : BitVec 64) (outParts : List Bytes)
  (fltdata : List (List (BitVec 32))) (elapse tf_id trg_type : BitVec 32)

/-- The messages that `addFilterMessage` adds to the parts. -/
def filterBlock : List Bytes :=
  (addFilterMessage fId sec usec outParts fltdata elapse tf_id trg_type).1.drop outParts.length

theorem filterBlock_eq :
    filterBlock fId sec usec outParts fltdata elapse tf_id trg_type =
      (filterHeader fId sec usec fltdata elapse tf_id trg_type).encode ::
        fltdata.map fun v => trgTimeMessage v trg_type := by
  rw [filterBlock, addFilterMessage_eq, List.drop_left]

theorem decode_headD_filterBlock :
    Filter.Header.decode
        ((filterBlock fId sec usec outParts fltdata elapse tf_id trg_type).headD []) =
      filterHeader fId sec usec fltdata elapse tf_id trg_type := by
  rw [filterBlock_eq, List.headD_cons]
  simpa using Filter.Header.decode_encode
    (filterHeader fId sec usec fltdata elapse tf_id trg_type) []

theorem sum_length_filterBlock :
    ((filterBlock fId sec usec outParts fltdata elapse tf_id trg_type).map List.length).sum =
      56 + (fltdata.map fun v => 16 + 8 * v.length).sum := by
  simp [filterBlock_eq, Filter.Header.size, Function.comp_def]

variable {fltdata} (hsum : 56 + (fltdata.map fun v => 16 + 8 * v.length).sum < 2 ^ 32)
include hsum

theorem filterBlock_numMessages :
    (filterHeader fId sec usec fltdata elapse tf_id trg_type).numMessages.toNat =
      (filterBlock fId sec usec outParts fltdata elapse tf_id trg_type).length := by
  have hcount := length_le_sum_messages fltdata
  rw [filterBlock_eq, filterHeader, BitVec.toNat_ofNat, List.length_cons, List.length_map]
  omega

theorem filterBlock_numTrigs :
    (filterHeader fId sec usec fltdata elapse tf_id trg_type).numTrigs.toNat =
      ((filterBlock fId sec usec outParts fltdata elapse tf_id trg_type).tail.map fun msg =>
        (msg.length - Filter.TrgTimeHeader.size) / Filter.TrgTime.size).sum := by
  have hsplit := sum_messages_eq fltdata
  have hpairs : ∀ v : List (BitVec 32), (16 + 8 * v.length - 16) / 8 = v.length := by
    intro v; omega
  rw [filterBlock_eq, filterHeader, BitVec.toNat_ofNat, List.tail_cons, List.map_map]
  simp only [Function.comp_def, length_trgTimeMessage, Filter.TrgTimeHeader.size,
    Filter.TrgTime.size, hpairs]
  exact Nat.mod_eq_of_lt (by omega)

theorem filterBlock_messages {msg : Bytes}
    (hmsg : msg ∈ (filterBlock fId sec usec outParts fltdata elapse tf_id trg_type).tail) :
    (Filter.TrgTimeHeader.decode msg).length.toNat = msg.length := by
  rw [filterBlock_eq, List.tail_cons, List.mem_map] at hmsg
  obtain ⟨v, hv, rfl⟩ := hmsg
  have hle : 16 + 8 * v.length ≤ (fltdata.map fun v => 16 + 8 * v.length).sum :=
    List.le_sum_of_mem (List.mem_map_of_mem hv)
  rw [length_trgTimeMessage, trgTimeMessage_eq, Filter.TrgTimeHeader.decode_encode,
    BitVec.toNat_ofNat]
  omega

/-- The block describes itself exactly when it holds no trigger time: a time adds
eight bytes and is announced as four. -/
theorem addFilterMessage_selfDescribing_iff :
    SelfDescribing (filterBlock fId sec usec outParts fltdata elapse tf_id trg_type) ↔
      ∀ v ∈ fltdata, v = [] := by
  have hsplit := sum_messages_eq fltdata
  have hlength : (filterHeader fId sec usec fltdata elapse tf_id trg_type).length.toNat =
      (56 + (fltdata.map fun v => v.length * 4 + 16).sum) % 2 ^ 32 := BitVec.toNat_ofNat _ _
  have hempty : (fltdata.map List.length).sum = 0 ↔ ∀ v ∈ fltdata, v = [] := by
    simp [List.sum_eq_zero_iff_forall_eq_nat]
  rw [← hempty]
  constructor
  · intro h
    have htotal := h.length
    rw [decode_headD_filterBlock, hlength, sum_length_filterBlock] at htotal
    omega
  · intro hnone
    refine ⟨?_, ?_, ?_, fun msg => filterBlock_messages _ _ _ _ _ _ _ hsum⟩
    · rw [decode_headD_filterBlock, hlength, sum_length_filterBlock]
      omega
    · rw [decode_headD_filterBlock]
      exact filterBlock_numMessages _ _ _ _ _ _ _ hsum
    · rw [decode_headD_filterBlock]
      exact filterBlock_numTrigs _ _ _ _ _ _ _ hsum

end Block

/-- Three heartbeat frames without a trigger. -/
theorem addFilterMessage_selfDescribing_iff_no_trigger :
    SelfDescribing (filterBlock 7 1700000000 250000 [] [[], [], []] 12 1 0xaa000000) ↔
      ∀ v ∈ [([] : List (BitVec 32)), [], []], v = [] :=
  addFilterMessage_selfDescribing_iff 7 1700000000 250000 [] 12 1 0xaa000000 (by decide)

/-- One trigger time: the messages hold 80 bytes and the header announces 76. -/
theorem one_trigger_time_not_selfDescribing :
    ¬ SelfDescribing (filterBlock 7 1700000000 250000 [] [[100]] 12 1 0xaa000000) := by
  intro h
  have hlength := h.length
  revert hlength
  decide

end LogicFilter
end Userworks
