import Userworks.Recbe.EventLayout

/-!
Events in suppressed mode. A list of records is decoded exactly; on any other
input the loop goes where the length bytes send it. It ends unless it comes to a
record of length 0, and it leaves the event at a record of length 10 that starts 8
or 9 bytes before the end.
-/
namespace Userworks
namespace Recbe

open Reads

/-- The record of a channel, with one hit or two. -/
structure ChannelRecord where
  channelId : BitVec 8
  countOverThreshold : BitVec 16
  adcSum : BitVec 16
  tdcHit0 : BitVec 16
  tdcHit1 : Option (BitVec 16)

namespace ChannelRecord

def size (record : ChannelRecord) : Nat := if record.tdcHit1.isSome then 10 else 8

def bytes (record : ChannelRecord) : Bytes :=
  hton 1 record.channelId ++ (hton 1 (BitVec.ofNat 8 record.size) ++
    (hton 2 record.countOverThreshold ++ (hton 2 record.adcSum ++ (hton 2 record.tdcHit0 ++
      record.tdcHit1.toList.flatMap (hton 2)))))

def unpacked (record : ChannelRecord) : UnpackedChannelData where
  channelId := record.channelId.toNat
  length := record.size
  countOverThreshold := record.countOverThreshold.toNat
  adcSum := record.adcSum.toNat
  tdcHit := (record.tdcHit0.toNat, (record.tdcHit1.getD 0).toNat)

theorem length_bytes (record : ChannelRecord) : record.bytes.length = record.size := by
  cases h : record.tdcHit1 with
  | none => simp [bytes, size, h]
  | some tdcHit1 => simp [bytes, size, h]

end ChannelRecord

theorem value_readChannel {raw : Nat → UInt8} {pos : Nat} {record : ChannelRecord}
    (h : Holds raw pos record.bytes) (hit1 : Int) :
    (readChannel hit1 pos).value raw = record.unpacked := by
  simp only [ChannelRecord.bytes, holds_append, length_hton, Nat.add_assoc, Nat.reduceAdd] at h
  obtain ⟨hid, hlength, hcount, hsum, hhit0, hhit1⟩ := h
  cases htdc : record.tdcHit1 with
  | none =>
      have hsize : record.size = 8 := by rw [ChannelRecord.size, htdc]; rfl
      rw [hsize] at hlength
      have hlen : (raw (pos + 1)).toNat = 8 := byte_hton hlength
      simp only [readChannel, value_bind, value_byte, value_pure, byte_hton hid, hlen,
        ntohs_hton hcount, ntohs_hton hsum, ntohs_hton hhit0, readTdcHit1, if_true]
      rw [ChannelRecord.unpacked, hsize, htdc]
      rfl
  | some tdcHit1 =>
      have hsize : record.size = 10 := by rw [ChannelRecord.size, htdc]; rfl
      rw [hsize] at hlength
      have hlen : (raw (pos + 1)).toNat = 10 := byte_hton hlength
      rw [htdc, Option.toList_some, List.flatMap_singleton] at hhit1
      simp only [readChannel, value_bind, value_byte, value_pure, byte_hton hid, hlen,
        ntohs_hton hcount, ntohs_hton hsum, ntohs_hton hhit0, readTdcHit1, ntohs_hton hhit1,
        if_true, Nat.reduceEqDiff, if_false]
      rw [ChannelRecord.unpacked, hsize, htdc]
      rfl

theorem value_channelLoop {raw : Nat → UInt8} (hit1 : Nat → Int) {pos fuel : Nat}
    (records : List ChannelRecord) (h : Holds raw pos (records.flatMap (·.bytes)))
    (hfuel : records.length < fuel) :
    (channelLoop hit1 (pos + (records.map (·.size)).sum) fuel pos).value raw =
      some (records.map (·.unpacked)) := by
  induction records generalizing pos fuel with
  | nil =>
      obtain ⟨fuel, rfl⟩ := Nat.exists_eq_add_one_of_ne_zero (Nat.ne_of_gt hfuel)
      rw [channelLoop, if_neg (by simp)]
      rfl
  | cons record records ih =>
      obtain ⟨fuel, rfl⟩ :=
        Nat.exists_eq_add_one_of_ne_zero (Nat.ne_of_gt (Nat.zero_lt_of_lt hfuel))
      rw [List.flatMap_cons, holds_append, record.length_bytes] at h
      have hsize : 8 ≤ record.size := by
        rw [ChannelRecord.size]
        split <;> decide
      have hrest := ih h.2 (Nat.lt_of_succ_lt_succ hfuel)
      have hlength : record.unpacked.length.toNat = record.size := Int.toNat_natCast _
      rw [List.map_cons, List.sum_cons, channelLoop, if_pos (by omega), value_bind, value_bind,
        value_readChannel h.1, hlength, ← Nat.add_assoc, hrest]
      rfl

/-- An event with the records of some channels; what the header says of itself fits. -/
structure SuppressedEvent where
  header : EventHeader
  records : List ChannelRecord
  hlength : header.length.toNat = (records.map (·.size)).sum

namespace SuppressedEvent

def bytes (event : SuppressedEvent) : Bytes :=
  event.header.bytes ++ event.records.flatMap (·.bytes)

/-- The data of an event: the header and the records. -/
def unpacked (event : SuppressedEvent) (data : Data) : Data :=
  { event.header.fill data with
    nSample := 0, adc := [], tdc := [], hitChannel := event.records.map (·.unpacked) }

end SuppressedEvent

/-- The records of an event come back, whatever is behind it in memory. -/
theorem value_unpackSupp (hit1 : Nat → Int) (data : Data) (event : SuppressedEvent)
    (behind : Nat → UInt8) {fuel : Nat} (hfuel : event.records.length < fuel) :
    (unpackSupp hit1 fuel data).value (place event.bytes behind) = some (event.unpacked data) := by
  have hholds := holds_place event.bytes behind
  rw [SuppressedEvent.bytes, holds_append, event.header.length_bytes, Nat.zero_add] at hholds
  have hloop := value_channelLoop hit1 event.records hholds.2 hfuel
  rw [← event.hlength, Nat.add_comm] at hloop
  simp only [unpackSupp, value_bind, value_pure]
  rw [SuppressedEvent.bytes] at *
  rw [value_readHeader hholds.1]
  have hlength : (event.header.fill data).length.toNat = event.header.length.toNat :=
    Int.toNat_natCast _
  rw [hlength, hloop]
  rfl

/-! The loop on any memory -/

/-- The length that the header announces. -/
def announced (raw : Nat → UInt8) : Nat := 256 * (raw 6).toNat + (raw 7).toNat

/-- Where the event ends. -/
def eventEnd (raw : Nat → UInt8) : Nat := announced raw + Header.sizeof

/-- The positions of records that the loop comes to. -/
inductive Reached (raw : Nat → UInt8) : Nat → Prop where
  | first : Reached raw Header.sizeof
  | next {pos : Nat} : Reached raw pos → pos + 8 ≤ eventEnd raw →
      Reached raw (pos + (raw (pos + 1)).toNat)

theorem length_readChannel (raw : Nat → UInt8) (hit1 : Int) (pos : Nat) :
    ((readChannel hit1 pos).value raw).length.toNat = (raw (pos + 1)).toNat := by
  simp only [readChannel, value_bind, value_byte, value_pure, Int.toNat_natCast]

theorem length_value_readHeader (raw : Nat → UInt8) (data : Data) :
    ((readHeader data).value raw).length.toNat = announced raw := by
  simp only [readHeader, ntohs, value_bind, value_byte, value_pure, Int.toNat_natCast]
  rfl

/-- The loop from a position ends. -/
def LoopEnds (hit1 : Nat → Int) (raw : Nat → UInt8) (pos : Nat) : Prop :=
  ∃ fuel hits, (channelLoop hit1 (eventEnd raw) fuel pos).value raw = some hits

section Loop

variable {hit1 : Nat → Int} {raw : Nat → UInt8} {pos : Nat}

theorem loopEnds_of_lt (h : eventEnd raw < pos + 8) : LoopEnds hit1 raw pos := by
  refine ⟨1, [], ?_⟩
  rw [channelLoop, if_neg (by omega)]
  rfl

theorem loopEnds_next_iff (h : pos + 8 ≤ eventEnd raw) :
    LoopEnds hit1 raw pos ↔ LoopEnds hit1 raw (pos + (raw (pos + 1)).toNat) := by
  have hstep : ∀ fuel, (channelLoop hit1 (eventEnd raw) (fuel + 1) pos).value raw =
      ((channelLoop hit1 (eventEnd raw) fuel (pos + (raw (pos + 1)).toNat)).value raw).map
        ((readChannel (hit1 pos) pos).value raw :: ·) := by
    intro fuel
    rw [channelLoop, if_pos h, value_bind, value_bind, length_readChannel, value_pure]
  constructor
  · intro hends
    obtain ⟨fuel, hits, heq⟩ := hends
    cases fuel with
    | zero => cases heq
    | succ fuel =>
        rw [hstep, Option.map_eq_some_iff] at heq
        obtain ⟨rest, hrest, -⟩ := heq
        exact ⟨fuel, rest, hrest⟩
  · intro hends
    obtain ⟨fuel, hits, heq⟩ := hends
    exact ⟨fuel + 1, _, by rw [hstep, heq]; rfl⟩

/-- A record of length 0 is read again and again. -/
theorem not_loopEnds_of_zero (h : pos + 8 ≤ eventEnd raw) (hzero : (raw (pos + 1)).toNat = 0) :
    ¬LoopEnds hit1 raw pos := by
  intro hends
  obtain ⟨fuel, hits, heq⟩ := hends
  induction fuel generalizing hits with
  | zero => cases heq
  | succ fuel ih =>
      rw [channelLoop, if_pos h, value_bind, value_bind, length_readChannel, hzero, Nat.add_zero,
        value_pure, Option.map_eq_some_iff] at heq
      obtain ⟨rest, hrest, -⟩ := heq
      exact ih rest hrest

theorem loopEnds_reached (h : Reached raw pos) (hends : LoopEnds hit1 raw Header.sizeof) :
    LoopEnds hit1 raw pos := by
  induction h with
  | first => exact hends
  | next _ hle ih => exact (loopEnds_next_iff hle).mp ih

theorem loopEnds_of_pos (h : Reached raw pos)
    (hpos : ∀ pos, Reached raw pos → pos + 8 ≤ eventEnd raw → (raw (pos + 1)).toNat ≠ 0) :
    LoopEnds hit1 raw pos := by
  -- the distance to the end of the event decreases
  generalize hleft : eventEnd raw + 1 - pos = left
  induction left using Nat.strongRecOn generalizing pos with
  | ind left ih =>
      by_cases hle : pos + 8 ≤ eventEnd raw
      · have hlength := hpos pos h hle
        rw [loopEnds_next_iff hle]
        exact ih _ (by omega) (.next h hle) rfl
      · exact loopEnds_of_lt (by omega)

end Loop

theorem unpack_returns_iff_loopEnds (hit1 : Nat → Int) (data : Data) (raw : Nat → UInt8)
    (htype : (raw 0).toNat = T_SUPPRESS ∨ (raw 0).toNat = T_SUPPRESS_OLD) :
    (∃ fuel result, (unpack hit1 fuel data).value raw = some result) ↔
      LoopEnds hit1 raw Header.sizeof := by
  have hraw : ¬((raw 0).toNat = T_RAW ∨ (raw 0).toNat = T_RAW_OLD) := by
    intro h
    rw [T_RAW, T_RAW_OLD] at h
    rw [T_SUPPRESS, T_SUPPRESS_OLD] at htype
    omega
  have hunpack : ∀ fuel, ((unpack hit1 fuel data).value raw).isSome =
      ((channelLoop hit1 (eventEnd raw) fuel Header.sizeof).value raw).isSome := by
    intro fuel
    rw [unpack, value_bind, value_byte, if_neg hraw, if_pos htype, value_bind, unpackSupp,
      value_bind, value_bind, length_value_readHeader, value_pure, value_pure, Option.isSome_map,
      Option.isSome_map, eventEnd]
  simp only [LoopEnds, ← Option.isSome_iff_exists, hunpack]

/-- The decoder returns exactly when no record that it comes to is of length 0. -/
theorem unpack_returns_iff (hit1 : Nat → Int) (data : Data) (raw : Nat → UInt8)
    (htype : (raw 0).toNat = T_SUPPRESS ∨ (raw 0).toNat = T_SUPPRESS_OLD) :
    (∃ fuel result, (unpack hit1 fuel data).value raw = some result) ↔
      ∀ pos, Reached raw pos → pos + 8 ≤ eventEnd raw → (raw (pos + 1)).toNat ≠ 0 := by
  rw [unpack_returns_iff_loopEnds hit1 data raw htype]
  refine ⟨fun hends pos hreached hle hzero => ?_, fun hpos => loopEnds_of_pos .first hpos⟩
  exact not_loopEnds_of_zero hle hzero (loopEnds_reached hreached hends)

/-- An event whose header announces 8 bytes, with nothing but zeros behind it. -/
def zeroEvent : Nat → UInt8 := place [2, 0, 0, 0, 0, 0, 0, 8] fun _ => 0

theorem unpack_returns_iff_zeroEvent :
    (∃ fuel result, (unpack (fun _ => 0) fuel {}).value zeroEvent = some result) ↔
      ∀ pos, Reached zeroEvent pos → pos + 8 ≤ eventEnd zeroEvent →
        (zeroEvent (pos + 1)).toNat ≠ 0 :=
  unpack_returns_iff (fun _ => 0) {} zeroEvent (Or.inl rfl)

theorem zeroEvent_never_returns :
    ¬∃ fuel result, (unpack (fun _ => 0) fuel {}).value zeroEvent = some result := by
  rw [unpack_returns_iff_loopEnds _ _ zeroEvent (Or.inl rfl)]
  exact not_loopEnds_of_zero (by decide) (by decide)

/-! The bytes that are read -/

/-- Nothing behind the event is read, however long the loop goes on. -/
def ReadsInside (hit1 : Nat → Int) (data : Data) (raw : Nat → UInt8) : Prop :=
  ∀ fuel, ∀ i ∈ (unpackSupp hit1 fuel data).offsets raw, i < eventEnd raw

/-- Every record of length 10 that the loop comes to ends inside the event. -/
def LongRecordsInside (raw : Nat → UInt8) : Prop :=
  ∀ pos, Reached raw pos → pos + 8 ≤ eventEnd raw → (raw (pos + 1)).toNat = 10 →
    pos + 10 ≤ eventEnd raw

theorem mem_offsets_ntohs {raw : Nat → UInt8} {offset i : Nat} :
    i ∈ (ntohs offset).offsets raw ↔ i = offset ∨ i = offset + 1 := by
  simp [ntohs]

theorem mem_offsets_readHeader {raw : Nat → UInt8} {data : Data} {i : Nat}
    (h : i ∈ (readHeader data).offsets raw) : i < Header.sizeof := by
  simp only [readHeader, ntohl, ntohs, offsets_bind, offsets_byte, offsets_pure, List.mem_append,
    List.mem_singleton, List.not_mem_nil, or_false] at h
  rw [Header.sizeof]
  omega

theorem mem_offsets_readChannel {raw : Nat → UInt8} {hit1 : Int} {pos i : Nat} :
    i ∈ (readChannel hit1 pos).offsets raw ↔
      (pos ≤ i ∧ i < pos + 8) ∨ ((raw (pos + 1)).toNat = 10 ∧ pos + 8 ≤ i ∧ i < pos + 10) := by
  have hlong : i ∈ (readTdcHit1 hit1 (raw (pos + 1)).toNat pos).offsets raw ↔
      (raw (pos + 1)).toNat = 10 ∧ pos + 8 ≤ i ∧ i < pos + 10 := by
    rw [readTdcHit1]
    split
    · simp
      omega
    · split
      · simp [mem_offsets_ntohs]
        omega
      · simp
        omega
  simp only [readChannel, offsets_bind, value_byte, offsets_byte, offsets_pure, List.mem_append,
    List.mem_singleton, mem_offsets_ntohs, hlong, List.not_mem_nil, or_false]
  constructor
  · intro h
    omega
  · intro h
    omega

/-- What the loop reads from a position it reads on its way from the first one. -/
theorem offsets_reached {hit1 : Nat → Int} {raw : Nat → UInt8} {pos : Nat} (h : Reached raw pos)
    (fuel : Nat) : ∃ more, ∀ i ∈ (channelLoop hit1 (eventEnd raw) fuel pos).offsets raw,
      i ∈ (channelLoop hit1 (eventEnd raw) more Header.sizeof).offsets raw := by
  induction h generalizing fuel with
  | first => exact ⟨fuel, fun i hi => hi⟩
  | @next pos _ hle ih =>
      obtain ⟨more, hmore⟩ := ih (fuel + 1)
      refine ⟨more, fun i hi => hmore i ?_⟩
      rw [channelLoop, if_pos hle, offsets_bind, offsets_bind, length_readChannel]
      exact List.mem_append_right _ (List.mem_append_left _ hi)

theorem mem_offsets_channelLoop {hit1 : Nat → Int} {raw : Nat → UInt8} {pos fuel i : Nat}
    (hreached : Reached raw pos) (hlong : LongRecordsInside raw)
    (h : i ∈ (channelLoop hit1 (eventEnd raw) fuel pos).offsets raw) : i < eventEnd raw := by
  induction fuel generalizing pos with
  | zero => cases h
  | succ fuel ih =>
      rw [channelLoop] at h
      split at h
      · rename_i hle
        simp only [offsets_bind, length_readChannel, offsets_pure, List.append_nil,
          List.mem_append, mem_offsets_readChannel] at h
        cases h with
        | inl h =>
            cases h with
            | inl h => omega
            | inr h =>
                have hend := hlong pos hreached hle h.1
                omega
        | inr h => exact ih (.next hreached hle) h
      · cases h

theorem readsInside_iff (hit1 : Nat → Int) (data : Data) (raw : Nat → UInt8) :
    ReadsInside hit1 data raw ↔ LongRecordsInside raw := by
  have hoffsets : ∀ fuel, (unpackSupp hit1 fuel data).offsets raw =
      (readHeader data).offsets raw ++
        (channelLoop hit1 (eventEnd raw) fuel Header.sizeof).offsets raw := by
    intro fuel
    simp only [unpackSupp, offsets_bind, length_value_readHeader, offsets_pure, List.append_nil]
    rfl
  constructor
  · intro hinside pos hreached hle hten
    obtain ⟨more, hmore⟩ := @offsets_reached hit1 raw pos hreached 1
    have hread : pos + 9 ∈ (channelLoop hit1 (eventEnd raw) 1 pos).offsets raw := by
      rw [channelLoop, if_pos hle, offsets_bind]
      exact List.mem_append_left _ (mem_offsets_readChannel.mpr (by omega))
    have hlast := hinside more (pos + 9) (by
      rw [hoffsets]
      exact List.mem_append_right _ (hmore _ hread))
    omega
  · intro hlong fuel i hi
    rw [hoffsets, List.mem_append] at hi
    cases hi with
    | inl hi =>
        have hheader := mem_offsets_readHeader hi
        rw [eventEnd]
        omega
    | inr hi => exact mem_offsets_channelLoop .first hlong hi

/-- Events are decoded exactly, and the decoder stays inside an event exactly when
every record of length 10 that it comes to does. -/
theorem unpackSupp_exact_and_inside (hit1 : Nat → Int) (data : Data) :
    (∀ (event : SuppressedEvent) (behind : Nat → UInt8) (fuel : Nat),
      event.records.length < fuel →
        (unpackSupp hit1 fuel data).value (place event.bytes behind) =
          some (event.unpacked data)) ∧
    ∀ raw, ReadsInside hit1 data raw ↔ LongRecordsInside raw :=
  ⟨fun event behind _ hfuel => value_unpackSupp hit1 data event behind hfuel,
    fun raw => readsInside_iff hit1 data raw⟩

/-- A record with one hit and a record with two. -/
def twoRecords : SuppressedEvent where
  header := { type := 2, id := 5, sentNumber := 6, timeStamp := 7, length := 18, triggerCount := 8 }
  records := [⟨3, 100, 500, 20, none⟩, ⟨47, 200, 600, 30, some 40⟩]
  hlength := by decide

theorem unpackSupp_exact_twoRecords :
    ∃ data, (unpackSupp (fun _ => 0) 3 {}).value (place twoRecords.bytes fun _ => 0) = some data ∧
      data.length = 18 ∧ data.triggerCount = 8 ∧
      data.hitChannel = [⟨3, 8, 100, 500, (20, 0)⟩, ⟨47, 10, 200, 600, (30, 40)⟩] :=
  ⟨_, (unpackSupp_exact_and_inside (fun _ => 0) {}).1 twoRecords (fun _ => 0) 3 (by decide),
    rfl, rfl, by decide⟩

/-- An event of 8 bytes that holds one record, which says that it has 10. -/
def longEvent : Nat → UInt8 := place [2, 0, 0, 0, 0, 0, 0, 8, 0, 0, 0, 0, 0, 10] fun _ => 0

theorem longEvent_reads_behind : ¬ReadsInside (fun _ => 0) {} longEvent := by
  intro h
  exact absurd (h 1 21 (by decide)) (by decide)

end Recbe
end Userworks
