import Userworks.Recbe.EventLayout
import Mathlib.Data.List.OfFn

/-!
Events in raw mode. In memory a sample is the ADC words of all channels and then
their TDC words; the decoder collects for each channel its values in all samples.
-/
namespace Userworks
namespace Recbe

open Reads

/-- One sample of all channels. -/
structure Sample where
  adc : Fin N_CH → BitVec 16
  tdcValue : Fin N_CH → BitVec 15
  tdcHit : Fin N_CH → Bool

namespace Sample

/-- The TDC word: the hit flag above the value. -/
def tdcWord (sample : Sample) (ch : Fin N_CH) : BitVec 16 :=
  BitVec.ofBool (sample.tdcHit ch) ++ sample.tdcValue ch

def tdc (sample : Sample) (ch : Fin N_CH) : Tdc where
  value := (sample.tdcValue ch).toNat
  hit := sample.tdcHit ch

def bytes (sample : Sample) : Bytes :=
  (List.ofFn sample.adc).flatMap (hton 2) ++ (List.ofFn sample.tdcWord).flatMap (hton 2)

end Sample

/-- An event with some samples; what the header says of itself fits. -/
structure RawEvent where
  header : EventHeader
  samples : List Sample
  htype : header.type.toNat = T_RAW ∨ header.type.toNat = T_RAW_OLD
  hlength : header.length.toNat = 192 * samples.length

namespace RawEvent

def bytes (event : RawEvent) : Bytes := event.header.bytes ++ event.samples.flatMap (·.bytes)

/-- The data of an event: the header, and the samples by channel. -/
def unpacked (event : RawEvent) (data : Data) : Data :=
  { event.header.fill data with
    nSample := event.samples.length
    adc := List.ofFn fun ch => event.samples.map fun sample => (sample.adc ch).toNat
    tdc := List.ofFn fun ch => event.samples.map fun sample => sample.tdc ch }

end RawEvent

section Loops

/-- A loop that changes the entries of a list one after the other. -/
theorem foldl_modify_range {α : Type} (f : Nat → α → α) (n : Nat) (A : Nat → α) :
    (List.range n).foldl (fun l j => l.modify j (f j)) ((List.range n).map A) =
      (List.range n).map fun j => f j (A j) := by
  suffices h : ∀ k, ∀ j : Nat,
      ((List.range k).foldl (fun l j => l.modify j (f j)) ((List.range n).map A))[j]? =
        if j < k then (((List.range n).map A)[j]?).map (f j) else ((List.range n).map A)[j]? by
    apply List.ext_getElem?
    intro j
    rw [h n j]
    by_cases hj : j < n
    · simp [hj]
    · simp [hj]
  intro k
  induction k with
  | zero => simp
  | succ k ih =>
      intro j
      rw [List.range_succ, List.foldl_append, List.foldl_cons, List.foldl_nil, List.getElem?_modify,
        ih j]
      by_cases hjk : k = j
      · simp [hjk]
      · have hlt : j < k + 1 ↔ j < k := by omega
        simp [hjk, hlt]

end Loops

/-- The ADC value that is read for channel `j` of sample `i`. -/
def adcAt (raw : Nat → UInt8) (i j : Nat) : Nat :=
  (ntohs (Header.sizeof + N_CH * 2 * (i * 2) + 2 * j)).value raw

def tdcAt (raw : Nat → UInt8) (i j : Nat) : Tdc :=
  let tval := (ntohs (Header.sizeof + N_CH * 2 * (i * 2 + 1) + 2 * j)).value raw
  { value := tval &&& 0x7fff, hit := tval &&& 0x8000 = 0x8000 }

variable (raw : Nat → UInt8)

/-- The data after `k` samples. -/
def collected (data : Data) (k : Nat) : Data :=
  { data with
    adc := (List.range N_CH).map fun j => (List.range k).map (adcAt raw · j)
    tdc := (List.range N_CH).map fun j => (List.range k).map (tdcAt raw · j) }

theorem value_readSample (i : Nat) (data : Data) (j : Nat) :
    (readSample i data j).value raw =
      { data with
        adc := data.adc.modify j (· ++ [adcAt raw i j])
        tdc := data.tdc.modify j (· ++ [tdcAt raw i j]) } := by
  simp only [readSample, value_bind, value_pure]
  rfl

theorem value_channels (i : Nat) (data : Data) (js : List Nat) :
    (js.foldlM (readSample i) data).value raw =
      { data with
        adc := js.foldl (fun adc j => adc.modify j (· ++ [adcAt raw i j])) data.adc
        tdc := js.foldl (fun tdc j => tdc.modify j (· ++ [tdcAt raw i j])) data.tdc } := by
  induction js generalizing data with
  | nil => rfl
  | cons j js ih => rw [List.foldlM_cons, value_bind, value_readSample, ih]; rfl

/-- One sample is added to every channel. -/
theorem value_channels_collected (data : Data) (k : Nat) :
    ((List.range N_CH).foldlM (readSample k) (collected raw data k)).value raw =
      collected raw data (k + 1) := by
  rw [value_channels, collected, foldl_modify_range, foldl_modify_range, collected]
  simp only [List.range_succ, List.map_append, List.map_cons, List.map_nil]

theorem value_samples (data : Data) (k : Nat) :
    ((List.range k).foldlM (fun data i => (List.range N_CH).foldlM (readSample i) data)
      (collected raw data 0)).value raw = collected raw data k := by
  rw [value_foldlM]
  induction k with
  | zero => rfl
  | succ k ih =>
      rw [List.range_succ, List.foldl_append, ih, List.foldl_cons, List.foldl_nil,
        value_channels_collected]

section Layout

variable {raw}

theorem length_words (word : Fin N_CH → BitVec 16) :
    ((List.ofFn word).flatMap (hton 2)).length = 96 := by
  rw [length_flatMap_of_size (length_hton 2), List.length_ofFn]
  rfl

theorem Sample.length_bytes (sample : Sample) : sample.bytes.length = 192 := by
  rw [Sample.bytes, List.length_append, length_words, length_words]

theorem ntohs_word {offset : Nat} {word : Fin N_CH → BitVec 16}
    (h : Holds raw offset ((List.ofFn word).flatMap (hton 2))) (ch : Fin N_CH) :
    (ntohs (offset + 2 * ch)).value raw = (word ch).toNat := by
  apply ntohs_hton
  apply holds_flatMap (length_hton 2) h
  rw [List.getElem?_ofFn]
  simp

theorem and_two_pow_eq (x k : Nat) : x &&& 2 ^ k = (x.testBit k).toNat * 2 ^ k := by
  apply Nat.eq_of_testBit_eq
  intro i
  rw [Nat.testBit_and, Nat.testBit_two_pow]
  by_cases hi : k = i
  · subst hi
    cases hbit : x.testBit k with
    | false => simp
    | true => simp
  · cases x.testBit k with
    | false => simp [hi]
    | true => simp [hi]

/-- The hit flag is the highest bit of a TDC word. -/
theorem tdc_of_word (sample : Sample) (ch : Fin N_CH) :
    ({ value := (sample.tdcWord ch).toNat &&& 0x7fff,
       hit := (sample.tdcWord ch).toNat &&& 0x8000 = 0x8000 } : Tdc) = sample.tdc ch := by
  have hlt := (sample.tdcValue ch).isLt
  have hword : (sample.tdcWord ch).toNat =
      (sample.tdcHit ch).toNat * 2 ^ 15 + (sample.tdcValue ch).toNat := by
    rw [Sample.tdcWord, BitVec.toNat_append, ← Nat.shiftLeft_add_eq_or_of_lt hlt, Nat.shiftLeft_eq,
      BitVec.toNat_ofBool]
  have hvalue : (sample.tdcWord ch).toNat &&& 0x7fff = (sample.tdcValue ch).toNat := by
    rw [hword, Nat.and_two_pow_sub_one_eq_mod _ 15]
    omega
  have hhit : (sample.tdcWord ch).toNat &&& 0x8000 = (sample.tdcHit ch).toNat * 0x8000 := by
    have hbit : (sample.tdcWord ch).toNat.testBit 15 = sample.tdcHit ch := by
      rw [BitVec.testBit_toNat, Sample.tdcWord, BitVec.getLsbD_append]
      cases sample.tdcHit ch with
      | false => rfl
      | true => rfl
    have hand := and_two_pow_eq (sample.tdcWord ch).toNat 15
    rwa [hbit] at hand
  rw [hvalue, hhit, Sample.tdc]
  cases sample.tdcHit ch with
  | false => rfl
  | true => rfl

variable {samples : List Sample} (h : Holds raw Header.sizeof (samples.flatMap (·.bytes)))
  {i : Nat} {sample : Sample} (hi : samples[i]? = some sample)

include h hi

theorem adcAt_sample (ch : Fin N_CH) : adcAt raw i ch = (sample.adc ch).toNat := by
  have hsample := holds_flatMap Sample.length_bytes h hi
  rw [Sample.bytes, holds_append] at hsample
  have hpos : Header.sizeof + N_CH * 2 * (i * 2) + 2 * ch = Header.sizeof + 192 * i + 2 * ch := by
    change 12 + 48 * 2 * (i * 2) + 2 * ch.val = 12 + 192 * i + 2 * ch.val
    omega
  rw [adcAt, hpos, ntohs_word hsample.1 ch]

theorem tdcAt_sample (ch : Fin N_CH) : tdcAt raw i ch = sample.tdc ch := by
  have hsample := holds_flatMap Sample.length_bytes h hi
  rw [Sample.bytes, holds_append, length_words] at hsample
  have hpos : Header.sizeof + N_CH * 2 * (i * 2 + 1) + 2 * ch =
      Header.sizeof + 192 * i + 96 + 2 * ch := by
    change 12 + 48 * 2 * (i * 2 + 1) + 2 * ch.val = 12 + 192 * i + 96 + 2 * ch.val
    omega
  rw [tdcAt, hpos, ntohs_word hsample.2 ch, tdc_of_word]

end Layout

/-- A table by channel and sample number, read from the samples. -/
theorem channels_eq {α : Type} (g : Nat → Nat → α) (f : Sample → Fin N_CH → α)
    (samples : List Sample)
    (h : ∀ i sample, samples[i]? = some sample → ∀ ch : Fin N_CH, g i ch = f sample ch) :
    ((List.range N_CH).map fun j => (List.range samples.length).map (g · j)) =
      List.ofFn fun ch => samples.map (f · ch) := by
  apply List.ext_getElem
  · rw [List.length_map, List.length_range, List.length_ofFn]
  · intro j hj hj'
    rw [List.getElem_map, List.getElem_range, List.getElem_ofFn]
    apply List.ext_getElem
    · rw [List.length_map, List.length_range, List.length_map]
    · intro i hi hi'
      rw [List.getElem_map, List.getElem_range, List.getElem_map]
      rw [List.length_map] at hi'
      exact h i samples[i] (List.getElem?_eq_getElem hi') ⟨j, by simpa using hj⟩

/-- An event in raw mode comes back whatever is behind it in memory. -/
theorem unpack_rawEvent (hit1 : Nat → Int) (fuel : Nat) (data : Data) (event : RawEvent)
    (behind : Nat → UInt8) :
    (unpack hit1 fuel data).value (place event.bytes behind) =
      some (0, event.unpacked data) := by
  have hholds := holds_place event.bytes behind
  generalize place event.bytes behind = raw at hholds
  rw [RawEvent.bytes, holds_append, event.header.length_bytes, Nat.zero_add] at hholds
  have htype : (raw 0).toNat = event.header.type.toNat := by
    have hheader := hholds.1
    rw [EventHeader.bytes, holds_append] at hheader
    exact byte_hton hheader.1
  have hraw : (raw 0).toNat = T_RAW ∨ (raw 0).toNat = T_RAW_OLD := htype ▸ event.htype
  have hsamples :
      (event.header.fill data).length / 2 / 2 / (N_CH : Int) = event.samples.length := by
    have hlength : (event.header.fill data).length = ((192 * event.samples.length : Nat) : Int) :=
      congrArg Nat.cast event.hlength
    rw [hlength, N_CH]
    omega
  have hadc := channels_eq (adcAt raw) (fun sample ch => (sample.adc ch).toNat) event.samples
    fun i sample hi ch => adcAt_sample hholds.2 hi ch
  have htdc := channels_eq (tdcAt raw) (fun sample ch => sample.tdc ch) event.samples
    fun i sample hi ch => tdcAt_sample hholds.2 hi ch
  have hloop := value_samples raw
    { event.header.fill data with nSample := event.samples.length } event.samples.length
  rw [collected, collected, hadc, htdc] at hloop
  rw [unpack, value_bind, value_byte, if_pos hraw, value_bind, value_pure, unpackRaw, value_bind,
    value_readHeader hholds.1]
  simp only [hsamples, Int.toNat_natCast]
  exact congrArg (fun data => some (0, data)) hloop

/-- A sample in which every channel has values of its own. -/
def countingSample (i : Nat) : Sample where
  adc ch := BitVec.ofNat 16 (256 * i + ch)
  tdcValue ch := BitVec.ofNat 15 (1024 * i + ch)
  tdcHit ch := ch.val % 2 = i

def twoSamples : RawEvent where
  header :=
    { type := 1, id := 5, sentNumber := 6, timeStamp := 7, length := 384, triggerCount := 8 }
  samples := [countingSample 0, countingSample 1]
  htype := by decide
  hlength := by decide

theorem unpack_rawEvent_twoSamples :
    ∃ data, (unpack (fun _ => 0) 0 {}).value (place twoSamples.bytes fun _ => 0) = some (0, data) ∧
      data.nSample = 2 ∧ data.triggerCount = 8 ∧
      data.adc = (List.range 48).map (fun ch => [ch, 256 + ch]) ∧
      data.tdc = (List.range 48).map fun ch =>
        [⟨ch, ch % 2 = 0⟩, ⟨1024 + ch, ch % 2 = 1⟩] :=
  ⟨_, unpack_rawEvent (fun _ => 0) 0 {} twoSamples fun _ => 0, rfl, rfl, by decide, by decide⟩

end Recbe
end Userworks
