import Userworks.Lib.InputFile
import Userworks.Lib.RecordFile
import Userworks.LogicFilter.FrameHeaders

/-!
The first look of a player at its file, which is the same in both players but for
the magic number they know. A file without a sink header is read from its start,
the others from behind the header. Both players also count their calls in the same way.
-/
namespace Userworks

/-- The calls that are left to a player, if their number is limited. -/
def callsLeft (fMaxIterations fNumIteration : Int) : Option Nat :=
  if fMaxIterations ≤ 0 then none else some (fMaxIterations - fNumIteration).toNat

theorem callsLeft_succ (fMaxIterations fNumIteration : Int) :
    callsLeft fMaxIterations (fNumIteration + 1) =
      (callsLeft fMaxIterations fNumIteration).map (· - 1) := by
  rw [callsLeft, callsLeft]
  split
  · rfl
  · rw [Option.map_some]
    congr 1
    omega

theorem stays_iff (fMaxIterations fNumIteration : Int) :
    (!(decide (fMaxIterations > 0) && decide (fMaxIterations ≤ fNumIteration))) =
      decide (callsLeft fMaxIterations fNumIteration ≠ some 0) := by
  rw [callsLeft]
  split
  · next hmax =>
      have hnot : ¬ fMaxIterations > 0 := by omega
      simp [hnot]
  · next hmax =>
      have hpos : fMaxIterations > 0 := by omega
      by_cases hreached : fMaxIterations ≤ fNumIteration
      · have hzero : (fMaxIterations - fNumIteration).toNat = 0 := by omega
        simp [hpos, hreached, hzero]
      · have hzero : (fMaxIterations - fNumIteration).toNat ≠ 0 := by omega
        simp [hreached, hzero]

/-- A maximum that is not positive, or large enough, leaves room for `n` calls. -/
theorem le_callsLeft_zero {fMaxIterations : Int} {n : Nat}
    (h : fMaxIterations ≤ 0 ∨ n ≤ fMaxIterations) : ∀ m ∈ callsLeft fMaxIterations 0, n ≤ m := by
  intro m hm
  rw [callsLeft] at hm
  split at hm
  · cases hm
  · cases hm
    omega

theorem callsLeft_zero_ne (fMaxIterations : Int) : callsLeft fMaxIterations 0 ≠ some 0 := by
  rw [callsLeft]
  split
  · exact nofun
  · rw [ne_eq, Option.some.injEq]
    omega

namespace InputFile

/-- The size field of the older sink header is read before its magic. A jump is
given as a `uint64_t` and taken as a signed offset. -/
def skipSinkHeader (MAGIC : BitVec 64) (contents : Bytes) : InputFile :=
  let (got, file) := InputFile.read { contents } 8
  let buf := field 8 0 got
  if file.gcount ≠ 8 then file
  else if buf = MAGIC then (file.seekg 0).clear
  else
    let (got, file) := file.read 8
    let second := field 8 0 got
    if buf = FileSinkHeader.MAGIC then file.seekgCur (second - 16).toInt
    else if second = FileSinkHeader.MAGIC then file.seekgCur (buf - 16).toInt
    else file

theorem remaining_open (contents : Bytes) : Remaining { contents } contents := ⟨rfl, rfl⟩

/-- A file that starts with the magic number is read from its first byte. -/
theorem skipSinkHeader_remaining {MAGIC : BitVec 64} {contents : Bytes}
    (hlen : 8 ≤ contents.length) (hfield : field 8 0 contents = MAGIC) :
    (skipSinkHeader MAGIC contents).Remaining contents := by
  have hopen := remaining_open contents
  have hkept := contents_read { contents } 8
  rw [← List.take_append_drop 8 contents] at hopen
  obtain ⟨file, hread, hrest, hgcount⟩ := hopen.read (List.length_take_of_le hlen)
  rw [List.take_append_drop] at hread
  have hmagic : field 8 0 (contents.take 8) = MAGIC := by
    rw [← hfield, field, field, List.drop_zero, List.drop_zero, List.take_take, Nat.min_self]
  have hsame : file.contents = contents := by
    rwa [hread] at hkept
  simp only [skipSinkHeader, hread, hgcount, hmagic, ne_eq, not_true_eq_false, if_false, if_true]
  exact hsame ▸ hrest.rewind

theorem skipSinkHeader_short {MAGIC : BitVec 64} {contents : Bytes} (hlen : contents.length < 8) :
    (skipSinkHeader MAGIC contents).eofbit = true := by
  obtain ⟨file, hread, -, hgcount⟩ := (remaining_open contents).read_short hlen
  have hshort : file.gcount ≠ 8 := hgcount ▸ Nat.ne_of_lt hlen
  have heof : file.eofbit = true := by
    have hflags : (InputFile.read { contents } 8).2.eofbit = true := by
      simp only [InputFile.read, good, Bool.not_false, Bool.and_self, if_true, List.drop_zero,
        List.take_of_length_le (Nat.le_of_lt hlen), hlen, decide_true]
    rwa [hread] at hflags
  simp only [skipSinkHeader, hread, if_pos hshort, heof]

section Records

variable {α : Type} (bytes : α → Bytes)

/-- The records `rs` and a part of another one are still to be read, or too little for
a magic number was there when the file was looked at. -/
def Before (tail : Bytes) (rs : List α) (file : InputFile) : Prop :=
  file.Remaining (rs.flatMap bytes ++ tail) ∨ rs = [] ∧ tail.length < 8 ∧ file.eofbit = true

variable {bytes}

theorem Before.cons {tail : Bytes} {r : α} {rs : List α} {file : InputFile}
    (h : file.Before bytes tail (r :: rs)) :
    file.Remaining (bytes r ++ (rs.flatMap bytes ++ tail)) := by
  cases h with
  | inl hremaining => rwa [List.flatMap_cons, List.append_assoc] at hremaining
  | inr hend => cases hend.1

/-- A file of records that start with the magic number is read from its first byte. -/
theorem skipSinkHeader_before {MAGIC : BitVec 64} (hlen : ∀ r, 8 ≤ (bytes r).length)
    (hfield : ∀ r rest, field 8 0 (bytes r ++ rest) = MAGIC) (rs : List α) {tail : Bytes}
    (htorn : Torn bytes tail) :
    (skipSinkHeader MAGIC (rs.flatMap bytes ++ tail)).Before bytes tail rs := by
  cases rs with
  | nil =>
      rw [List.flatMap_nil, List.nil_append]
      by_cases hshort : tail.length < 8
      · exact .inr ⟨rfl, hshort, skipSinkHeader_short hshort⟩
      · refine .inl (skipSinkHeader_remaining (Nat.le_of_not_lt hshort) ?_)
        cases htorn with
        | inl hnone => exact absurd (by simp [hnone]) hshort
        | inr hpart =>
            obtain ⟨r, n, hn, rfl⟩ := hpart
            rw [List.length_take_of_le (Nat.le_of_lt hn)] at hshort
            rw [field_take (by omega), ← hfield r [], List.append_nil]
  | cons r rs =>
      have hfirst := hlen r
      rw [Before, List.flatMap_cons, List.append_assoc]
      refine .inl (skipSinkHeader_remaining ?_ (hfield r _))
      rw [List.length_append]
      omega

end Records

end InputFile
end Userworks
