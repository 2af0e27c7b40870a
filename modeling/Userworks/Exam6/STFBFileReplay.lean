import Userworks.Exam6.STFBFilePlayer

/-!
Replay of sub time frame files that end anywhere.

The bodies of the frames are any bytes here. The player compares the number of bytes
that it has read of a body with the size of a header, not of the body: a short body
ends the replay although it is complete, and a long one is sent although it is not.
-/
namespace Userworks

namespace STFBFilePlayer

/-- A sub time frame whose length field covers its header and its body. -/
structure RawFrame where
  header : SubTimeFrame.Header
  body : Bytes
  magic_eq : header.magic = SubTimeFrame.MAGIC
  length_eq : header.length.toNat = SubTimeFrame.Header.size + body.length

def RawFrame.bytes (f : RawFrame) : Bytes := f.header.encode ++ f.body

/-- The messages of a sub time frame. -/
def RawFrame.parts (fSplitMethod : Int) (f : RawFrame) : List Bytes :=
  f.header.encode :: splitWords fSplitMethod [] (words f.body)

/-- The body fills a header. -/
def RawFrame.Good (f : RawFrame) : Prop := SubTimeFrame.Header.size ≤ f.body.length

theorem RawFrame.length_bytes (f : RawFrame) :
    f.bytes.length = SubTimeFrame.Header.size + f.body.length := by
  rw [bytes, List.length_append, SubTimeFrame.Header.length_encode]

section Calls

/-- The player after a frame was sent. -/
def Player.afterFrame (s : Player) (file : InputFile) (outParts : List Bytes) : Player :=
  { s with
    fInputFile := file
    dqmSent := if s.dqmSocketExists then s.dqmSent ++ [outParts] else s.dqmSent
    sent := s.sent ++ [outParts]
    fNumIteration := s.fNumIteration + 1 }

def Player.left (s : Player) : Option Nat := callsLeft s.fMaxIterations s.fNumIteration

/-- The outcome of a call that has read `got` of a body. -/
theorem readFrame_body {s : Player} {f : RawFrame} {got : Bytes} {file : InputFile}
    (hread : s.fInputFile.read f.body.length = (got, file))
    (hgot : got.length ≤ f.body.length) :
    readFrame s f.header.encode =
      if file.gcount < SubTimeFrame.Header.size then .ok ({ s with fInputFile := file }, false)
      else
        let s' := s.afterFrame file (f.header.encode :: splitWords s.fSplitMethod []
          (words (InputFile.overwrite got (List.replicate f.body.length 0))))
        .ok (s', decide (s'.left ≠ some 0)) := by
  have hdecode := f.header.decode_encode_self
  have hsize : f.header.length.toNat - SubTimeFrame.Header.size = f.body.length := by
    rw [f.length_eq, Nat.add_sub_cancel_left]
  have hroom : ¬ f.header.length.toNat < SubTimeFrame.Header.size := by
    rw [f.length_eq]
    omega
  have hbuf : (InputFile.overwrite got (List.replicate f.body.length 0)).length =
      f.body.length := by
    rw [InputFile.overwrite, List.length_append, List.length_drop, List.length_replicate]
    omega
  have hwords := words_take (InputFile.overwrite got (List.replicate f.body.length 0))
  rw [hbuf] at hwords
  rw [readFrame]
  simp only [hdecode, if_neg hroom, hsize, hread, hwords, stays_iff]
  rfl

/-- A call at the start of a frame comes to the read of its body. -/
theorem conditionalRun_header (mem : SubTimeFrame.Header) {s : Player} {f : RawFrame} {bs : Bytes}
    (h : s.fInputFile.Remaining (f.header.encode ++ bs)) :
    ∃ file, file.Remaining bs ∧
      conditionalRun mem s = readFrame { s with fInputFile := file } f.header.encode := by
  obtain ⟨file, hread, hremaining, hgcount⟩ := h.read f.header.length_encode
  refine ⟨file, hremaining, ?_⟩
  have hfull : InputFile.overwrite f.header.encode mem.encode = f.header.encode :=
    InputFile.overwrite_of_length_eq (by
      rw [SubTimeFrame.Header.length_encode, SubTimeFrame.Header.length_encode])
  have hdecode := f.header.decode_encode_self
  rw [conditionalRun, h.eofbit]
  simp only [Bool.false_eq_true, if_false, hread, hgcount, Nat.lt_irrefl, hfull, hdecode,
    f.magic_eq, ne_eq, not_true_eq_false]

theorem conditionalRun_whole (mem : SubTimeFrame.Header) {s : Player} {f : RawFrame} {rest : Bytes}
    (h : s.fInputFile.Remaining (f.bytes ++ rest)) :
    ∃ file, file.Remaining rest ∧ conditionalRun mem s =
      if f.body.length < SubTimeFrame.Header.size then .ok ({ s with fInputFile := file }, false)
      else
        let s' := s.afterFrame file (f.parts s.fSplitMethod)
        .ok (s', decide (s'.left ≠ some 0)) := by
  rw [RawFrame.bytes, List.append_assoc] at h
  obtain ⟨file, hbody, hcall⟩ := conditionalRun_header mem h
  obtain ⟨file', hread, hrest, hgcount⟩ := hbody.read rfl
  refine ⟨file', hrest, ?_⟩
  have hfull : InputFile.overwrite f.body (List.replicate f.body.length 0) = f.body :=
    InputFile.overwrite_of_length_eq List.length_replicate.symm
  rw [hcall, readFrame_body hread (Nat.le_refl _), hgcount, hfull]
  rfl

/-- A call that finds less than a header stops without sending. -/
theorem conditionalRun_short (mem : SubTimeFrame.Header) {s : Player} {bs : Bytes}
    (hshort : bs.length < SubTimeFrame.Header.size)
    (h : s.fInputFile.Remaining bs ∨ s.fInputFile.eofbit = true) :
    ∃ file, conditionalRun mem s = .ok ({ s with fInputFile := file }, false) := by
  cases h with
  | inl hremaining =>
      obtain ⟨file, hread, -, hgcount⟩ := hremaining.read_short hshort
      refine ⟨file, ?_⟩
      rw [conditionalRun, hremaining.eofbit]
      simp only [Bool.false_eq_true, if_false, hread, hgcount, if_pos hshort]
  | inr heof => exact ⟨s.fInputFile, by rw [conditionalRun, if_pos heof]⟩

/-- A call in front of a part of a frame sends it if enough of its body is there. -/
theorem conditionalRun_torn (mem : SubTimeFrame.Header) {s : Player} {tail : Bytes}
    (htorn : Torn RawFrame.bytes tail) (h : s.fInputFile.Remaining tail) :
    ∃ file, if tail.length - SubTimeFrame.Header.size < SubTimeFrame.Header.size then
        conditionalRun mem s = .ok ({ s with fInputFile := file }, false)
      else
        ∃ outParts, ∃ go, conditionalRun mem s = .ok (s.afterFrame file outParts, go) := by
  by_cases hheader : tail.length < SubTimeFrame.Header.size
  · obtain ⟨file, hcall⟩ := conditionalRun_short mem hheader (.inl h)
    exact ⟨file, by rwa [if_pos (by omega)]⟩
  · cases htorn with
    | inl hnone => exact absurd (by simp [hnone, SubTimeFrame.Header.size]) hheader
    | inr hpart =>
        obtain ⟨f, n, hn, rfl⟩ := hpart
        rw [List.length_take_of_le (Nat.le_of_lt hn)] at hheader ⊢
        rw [f.length_bytes] at hn
        have hpart : f.bytes.take n =
            f.header.encode ++ f.body.take (n - SubTimeFrame.Header.size) := by
          rw [RawFrame.bytes, List.take_append, SubTimeFrame.Header.length_encode,
            List.take_of_length_le (by rw [SubTimeFrame.Header.length_encode]; omega)]
        have hlen : (f.body.take (n - SubTimeFrame.Header.size)).length =
            n - SubTimeFrame.Header.size := List.length_take_of_le (by omega)
        rw [hpart] at h
        obtain ⟨file, hbody, hcall⟩ := conditionalRun_header mem h
        obtain ⟨file', hread, -, hgcount⟩ := hbody.read_short (n := f.body.length) (by omega)
        rw [hlen] at hgcount
        refine ⟨file', ?_⟩
        rw [hcall, readFrame_body hread (by omega), hgcount]
        split
        · rfl
        · exact ⟨_, _, rfl⟩

theorem readFrame_grows {s s' : Player} {msgSTFHeader : Bytes} {go : Bool}
    (h : readFrame s msgSTFHeader = .ok (s', go)) : ∃ more, s'.sent = s.sent ++ more := by
  rw [readFrame] at h
  dsimp only at h
  split at h
  · cases h
  · split at h
    · cases h
      exact ⟨[], (List.append_nil _).symm⟩
    · cases h
      exact ⟨_, rfl⟩

theorem conditionalRun_grows (mem : SubTimeFrame.Header) (s s' : Player) (go : Bool)
    (h : conditionalRun mem s = .ok (s', go)) : ∃ more, s'.sent = s.sent ++ more := by
  have hkept : ∃ more, s.sent = s.sent ++ more := ⟨[], (List.append_nil _).symm⟩
  rw [conditionalRun] at h
  dsimp only at h
  split at h
  · cases h
    exact hkept
  · split at h
    · cases h
      exact hkept
    · split at h
      · cases h
        exact hkept
      · have hgrown := readFrame_grows h
        exact hgrown

/-- The player stands in front of the frames `rs` and of a part of another one. -/
structure Before (fSplitMethod : Int) (tail : Bytes) (rs : List RawFrame) (s : Player) : Prop where
  split_eq : s.fSplitMethod = fSplitMethod
  file : s.fInputFile.Before RawFrame.bytes tail rs

theorem plays (fSplitMethod : Int) {tail : Bytes} (htorn : Torn RawFrame.bytes tail) :
    Plays conditionalRun Player.sent Player.left (Before fSplitMethod tail)
      (RawFrame.parts fSplitMethod) RawFrame.Good
      (tail.length - SubTimeFrame.Header.size < SubTimeFrame.Header.size) where
  grows := conditionalRun_grows
  good := by
    intro mem s f rs hbefore hgood
    obtain ⟨file, hrest, hcall⟩ := conditionalRun_whole mem hbefore.file.cons
    rw [if_neg (Nat.not_lt.mpr hgood), hbefore.split_eq] at hcall
    exact ⟨_, hcall, rfl, ⟨hbefore.split_eq, .inl hrest⟩, callsLeft_succ _ _⟩
  bad := by
    intro mem s f rs hbefore hbad s' go hrun
    obtain ⟨file, -, hcall⟩ := conditionalRun_whole mem hbefore.file.cons
    rw [if_pos (Nat.lt_of_not_le hbad), hrun] at hcall
    cases hcall
    exact ⟨rfl, rfl⟩
  goodEnd := by
    intro mem s hbefore hgood
    cases hbefore.file with
    | inl hremaining =>
        obtain ⟨file, hcall⟩ := conditionalRun_torn mem htorn hremaining
        rw [if_pos hgood] at hcall
        exact ⟨_, hcall, rfl⟩
    | inr hend =>
        have hshort : tail.length < SubTimeFrame.Header.size := Nat.lt_trans hend.2.1 (by decide)
        obtain ⟨file, hcall⟩ := conditionalRun_short mem hshort (.inr hend.2.2)
        exact ⟨_, hcall, rfl⟩
  badEnd := by
    intro mem s hbefore hbad s' go hrun
    cases hbefore.file with
    | inl hremaining =>
        obtain ⟨file, hcall⟩ := conditionalRun_torn mem htorn hremaining
        rw [if_neg hbad] at hcall
        obtain ⟨outParts, go', hcall⟩ := hcall
        rw [hrun] at hcall
        cases hcall
        intro hsame
        cases List.append_right_eq_self.mp hsame
    | inr hend =>
        refine absurd ?_ hbad
        rw [SubTimeFrame.Header.size]
        omega

theorem RawFrame.field_bytes (f : RawFrame) (rest : Bytes) :
    field 8 0 (f.bytes ++ rest) = SubTimeFrame.MAGIC := by
  rw [bytes, SubTimeFrame.Header.encode, f.magic_eq]
  simp only [List.append_assoc, field_put_self]

/-- The frames and the part of a frame behind them are what the player finds in its
file when its loop starts. -/
theorem preRun_before (opts : Options) (rs : List RawFrame) {tail : Bytes}
    (htorn : Torn RawFrame.bytes tail) :
    Before opts.split tail rs
      (preRun (initTask opts) (rs.flatMap RawFrame.bytes ++ tail)) where
  split_eq := rfl
  file := by
    refine InputFile.skipSinkHeader_before ?_ RawFrame.field_bytes rs htorn
    intro f
    rw [f.length_bytes, SubTimeFrame.Header.size]
    omega

/-- The replay of a cut file sends the messages of the frames before the cut, no others,
and stops. -/
def Faithful (opts : Options) (frames : List RawFrame) (cut : Nat)
    (mems : List SubTimeFrame.Header) : Prop :=
  ∃ s, replay opts mems ((frames.flatMap RawFrame.bytes).take cut) = .ok (s, false) ∧
    s.sent = (whole RawFrame.bytes cut frames).map (RawFrame.parts opts.split)

theorem faithful_iff (opts : Options) (frames : List RawFrame) (cut : Nat)
    {mems : List SubTimeFrame.Header} (hmems : frames.length < mems.length) :
    Faithful opts frames cut mems ↔
      (∀ f ∈ whole RawFrame.bytes cut frames, f.Good) ∧
      (∀ n ∈ callsLeft opts.maxIterations 0, (whole RawFrame.bytes cut frames).length ≤ n) ∧
      ((tornBytes RawFrame.bytes cut frames).length - SubTimeFrame.Header.size <
          SubTimeFrame.Header.size ∨
        callsLeft opts.maxIterations 0 = some (whole RawFrame.bytes cut frames).length) := by
  have htorn := tornBytes_torn RawFrame.bytes cut frames
  have hbefore := preRun_before opts (whole RawFrame.bytes cut frames) htorn
  have hcalls : (whole RawFrame.bytes cut frames).length < mems.length :=
    Nat.lt_of_le_of_lt (whole_sublist RawFrame.bytes cut frames).length_le hmems
  have hleft : (preRun (initTask opts) ((frames.flatMap RawFrame.bytes).take cut)).left ≠
      some 0 := callsLeft_zero_ne _
  rw [Faithful, replay]
  rw [take_flatMap_eq] at hleft ⊢
  exact (plays opts.split htorn).playAll_iff hcalls hbefore hleft

end Calls
end STFBFilePlayer
end Userworks
