import Userworks.Lib.LittleEndian

/-!
An open `std::ifstream` on a file that nobody else writes: its contents, the read
position, the state bits and the count of the last unformatted read.

A read on a stream that is not good takes nothing and counts zero. A seek first
clears the end-of-file bit and fails if the stream has failed or the new position
lies before the start of the file.
-/
namespace Userworks

structure InputFile where
  contents : Bytes
  pos : Nat := 0
  eofbit : Bool := false
  failbit : Bool := false
  gcount : Nat := 0
  deriving DecidableEq

namespace InputFile

def good (f : InputFile) : Bool := !f.eofbit && !f.failbit

def read (f : InputFile) (n : Nat) : Bytes × InputFile :=
  if f.good then
    let got := (f.contents.drop f.pos).take n
    (got, { f with
      pos := f.pos + got.length
      gcount := got.length
      eofbit := decide (got.length < n)
      failbit := decide (got.length < n) })
  else ([], { f with gcount := 0, failbit := true })

def clear (f : InputFile) : InputFile := { f with eofbit := false, failbit := false }

def seekg (f : InputFile) (pos : Int) : InputFile :=
  let f := { f with eofbit := false }
  if f.failbit then f
  else if pos < 0 then { f with failbit := true }
  else { f with pos := pos.toNat }

/-- `seekg` with `std::ios_base::cur`. -/
def seekgCur (f : InputFile) (off : Int) : InputFile := f.seekg (f.pos + off)

/-- A buffer after a read into it that stored the bytes `got`. -/
def overwrite (got buffer : Bytes) : Bytes := got ++ buffer.drop got.length

theorem overwrite_of_length_eq {got buffer : Bytes} (h : got.length = buffer.length) :
    overwrite got buffer = got := by
  rw [overwrite, h, List.drop_length, List.append_nil]

/-- The stream is good and these bytes are still to be read. -/
structure Remaining (f : InputFile) (bs : Bytes) : Prop where
  good : f.good = true
  drop : f.contents.drop f.pos = bs

theorem Remaining.eofbit {f : InputFile} {bs : Bytes} (h : f.Remaining bs) :
    f.eofbit = false := by
  have hgood := h.good
  rw [InputFile.good, Bool.and_eq_true, Bool.not_eq_true'] at hgood
  exact hgood.1

theorem Remaining.failbit {f : InputFile} {bs : Bytes} (h : f.Remaining bs) :
    f.failbit = false := by
  have hgood := h.good
  rw [InputFile.good, Bool.and_eq_true, Bool.not_eq_true', Bool.not_eq_true'] at hgood
  exact hgood.2

@[simp] theorem contents_read (f : InputFile) (n : Nat) :
    (f.read n).2.contents = f.contents := by
  rw [read]
  split <;> rfl

/-- Going back to the start of the file. -/
theorem Remaining.rewind {f : InputFile} {bs : Bytes} (h : f.Remaining bs) :
    (f.seekg 0).clear.Remaining f.contents := by
  refine ⟨rfl, ?_⟩
  simp only [seekg, h.failbit, Bool.false_eq_true, Int.lt_irrefl, if_false, clear,
    Int.toNat_zero, List.drop_zero]

/-- A read that finds all its bytes. -/
theorem Remaining.read {f : InputFile} {bs rest : Bytes} (h : f.Remaining (bs ++ rest)) {n : Nat}
    (hn : bs.length = n) :
    ∃ f', f.read n = (bs, f') ∧ f'.Remaining rest ∧ f'.gcount = n := by
  have htake : (f.contents.drop f.pos).take n = bs := by
    rw [h.drop, List.take_append_of_le_length (by omega), List.take_of_length_le (by omega)]
  refine ⟨_, by rw [InputFile.read, if_pos h.good, htake], ⟨?_, ?_⟩, hn⟩
  · simp only [InputFile.good, hn, Nat.lt_irrefl, decide_false, Bool.not_false, Bool.and_self]
  · rw [← List.drop_drop, h.drop, List.drop_left]

/-- A read that comes to the end of the file. -/
theorem Remaining.read_short {f : InputFile} {bs : Bytes} (h : f.Remaining bs) {n : Nat}
    (hn : bs.length < n) :
    ∃ f', f.read n = (bs, f') ∧ f'.good = false ∧ f'.gcount = bs.length := by
  have htake : (f.contents.drop f.pos).take n = bs := by
    rw [h.drop, List.take_of_length_le (by omega)]
  refine ⟨_, by rw [InputFile.read, if_pos h.good, htake], ?_, rfl⟩
  simp only [InputFile.good, hn, decide_true, Bool.not_true, Bool.and_self]

theorem read_of_not_good {f : InputFile} (h : f.good = false) (n : Nat) :
    f.read n = ([], { f with gcount := 0, failbit := true }) := by
  rw [read, if_neg (by rw [h]; exact Bool.false_ne_true)]

theorem not_good_of_failbit {f : InputFile} (h : f.failbit = true) : f.good = false := by
  rw [good, h, Bool.not_true, Bool.and_false]

end InputFile
end Userworks
