import Userworks.Exam6.SinkHeader
import Userworks.Exam6.TFBFilePlayer

/-!
Replay of time frame files.

A time frame is written as its messages, one after the other. The player finds the
time frame header and the sub time frame headers again by their length fields, and
the messages by the delimiter words. For words of the first generation every split
method gives the messages of its layout back. For words of the current generation
the second delimiter is not recognised, and the messages come back only if there
are none.
-/
namespace Userworks
namespace TFBFilePlayer

open AmQStrTdc

/-- A sub time frame whose length field covers its header and its messages. -/
structure SubFrame where
  header : SubTimeFrame.Header
  messages : List (List Word)
  length_eq : header.length.toNat = SubTimeFrame.Header.size + 8 * messages.flatten.length

/-- A time frame of at least one sub time frame, with its length and their number in
its header. -/
structure Frame where
  header : TimeFrame.Header
  subs : List SubFrame
  magic_eq : header.magic = TimeFrame.MAGIC
  length_eq : header.length.toNat =
    TimeFrame.Header.size + (subs.map fun sub => sub.header.length.toNat).sum
  numSource_eq : header.numSource.toNat = subs.length
  subs_ne_nil : subs ≠ []

/-- The messages of a time frame when those behind each sub time frame header are
`bodies`. -/
def Frame.partsWith (bodies : SubFrame → List Bytes) (f : Frame) : List Bytes :=
  f.header.encode :: f.subs.flatMap fun sub => sub.header.encode :: bodies sub

def Frame.parts (f : Frame) : List Bytes :=
  f.partsWith fun sub => sub.messages.map putWords

def SubFrame.bytes (sub : SubFrame) : Bytes :=
  sub.header.encode ++ putWords sub.messages.flatten

/-- The messages written back to back. -/
def Frame.bytes (f : Frame) : Bytes := f.parts.flatten

theorem flatten_map_putWords (messages : List (List Word)) :
    (messages.map putWords).flatten = putWords messages.flatten := by
  induction messages with
  | nil => rfl
  | cons message messages ih =>
      rw [List.map_cons, List.flatten_cons, ih, List.flatten_cons, putWords_append]

theorem SubFrame.length_bytes (sub : SubFrame) : sub.bytes.length = sub.header.length.toNat := by
  rw [bytes, List.length_append, SubTimeFrame.Header.length_encode, length_putWords,
    sub.length_eq]

theorem Frame.bytes_eq (f : Frame) :
    f.bytes = f.header.encode ++ f.subs.flatMap SubFrame.bytes := by
  rw [bytes, parts, partsWith, List.flatten_cons, List.flatMap_def, List.flatten_flatten,
    List.map_map, List.flatMap_def]
  refine congrArg (fun chunks => f.header.encode ++ List.flatten chunks) ?_
  apply List.map_congr_left
  intro sub _
  rw [Function.comp_apply, List.flatten_cons, flatten_map_putWords, SubFrame.bytes]

theorem Frame.length_body (f : Frame) :
    (f.subs.flatMap SubFrame.bytes).length = f.header.length.toNat - TimeFrame.Header.size := by
  rw [f.length_eq, Nat.add_sub_cancel_left, List.length_flatMap]
  exact congrArg List.sum (List.map_congr_left fun sub _ => sub.length_bytes)

/-- A body holds at least one sub time frame header. -/
theorem Frame.header_size_le_body (f : Frame) :
    TimeFrame.Header.size ≤ (f.subs.flatMap SubFrame.bytes).length := by
  obtain ⟨sub, rest, hsubs⟩ := List.exists_cons_of_ne_nil f.subs_ne_nil
  rw [hsubs, List.flatMap_cons, List.length_append, sub.length_bytes, sub.length_eq,
    TimeFrame.Header.size, SubTimeFrame.Header.size]
  omega

section SubFrames

variable {fSplitMethod : Int} {bodies : SubFrame → List Bytes}

/-- The words of a sub time frame are cut into the given messages, whatever follows
them in the buffer. -/
def SplitsInto (fSplitMethod : Int) (bodies : SubFrame → List Bytes) (sub : SubFrame) : Prop :=
  ∀ past, splitWords fSplitMethod past [] sub.messages.flatten = .ok (bodies sub)

/-- A sub time frame of any body; the words behind those of the body are the rest of
the buffer. -/
theorem subFrames_header {header : SubTimeFrame.Header} {body : Bytes}
    (hlen : header.length.toNat = SubTimeFrame.Header.size + body.length) (n : Nat)
    (rest : Bytes) :
    subFrames fSplitMethod (n + 1) (header.encode ++ body ++ rest) = (do
      let msgs ← splitWords fSplitMethod (body.drop (8 * (body.length / 8)) ++ rest) []
        (words body)
      let parts ← subFrames fSplitMethod n rest
      return header.encode :: msgs ++ parts) := by
  have hsize : header.length.toNat - SubTimeFrame.Header.size = body.length := by omega
  have hbytes : (header.encode ++ body).length = header.length.toNat := by
    rw [List.length_append, SubTimeFrame.Header.length_encode, hlen]
  have hheader : (header.encode ++ body ++ rest).drop SubTimeFrame.Header.size = body ++ rest := by
    rw [List.append_assoc, List.drop_left' header.length_encode]
  have hwords : words ((body ++ rest).take (8 * (body.length / 8))) = words body := by
    rw [List.take_append_of_le_length (by omega), words_take]
  have hpast : (body ++ rest).drop (8 * (body.length / 8)) =
      body.drop (8 * (body.length / 8)) ++ rest := List.drop_append_of_le_length (by omega)
  have htake : (header.encode ++ body ++ rest).take SubTimeFrame.Header.size = header.encode := by
    rw [List.append_assoc, List.take_left' header.length_encode]
  have hdecode : SubTimeFrame.Header.decode (header.encode ++ body ++ rest) = header := by
    rw [List.append_assoc, SubTimeFrame.Header.decode_encode]
  have hroom : ¬ ((header.encode ++ body ++ rest).length < SubTimeFrame.Header.size ∨
      header.length.toNat < SubTimeFrame.Header.size ∨
      (header.encode ++ body ++ rest).length < header.length.toNat) := by
    rw [List.length_append]
    omega
  rw [subFrames]
  simp only [hdecode, if_neg hroom, hheader, hsize, hwords, hpast, htake,
    List.drop_left' hbytes]

theorem subFrames_cons {sub : SubFrame} (h : SplitsInto fSplitMethod bodies sub) (n : Nat)
    (rest : Bytes) {parts : List Bytes} (hrest : subFrames fSplitMethod n rest = .ok parts) :
    subFrames fSplitMethod (n + 1) (sub.bytes ++ rest) =
      .ok (sub.header.encode :: bodies sub ++ parts) := by
  have hlen := sub.length_eq
  rw [← length_putWords] at hlen
  rw [SubFrame.bytes, subFrames_header hlen, words_putWords, h _, hrest]
  rfl

theorem subFrames_flatMap_bytes {subs : List SubFrame}
    (h : ∀ sub ∈ subs, SplitsInto fSplitMethod bodies sub) :
    subFrames fSplitMethod subs.length (subs.flatMap SubFrame.bytes) =
      .ok (subs.flatMap fun sub => sub.header.encode :: bodies sub) := by
  induction subs with
  | nil => rfl
  | cons sub subs ih =>
      rw [List.flatMap_cons, List.flatMap_cons]
      exact subFrames_cons (h sub List.mem_cons_self) _ _
        (ih fun other hother => h other (List.mem_cons_of_mem _ hother))

end SubFrames

section Calls

variable {bodies : SubFrame → List Bytes}

/-- The player after a frame was sent. -/
def Player.afterFrame (s : Player) (file : InputFile) (parts : List Bytes) : Player :=
  { s with
    fInputFile := file
    sent := s.sent ++ [parts]
    fNumIteration := s.fNumIteration + 1 }

/-- The player has not reached its maximum number of iterations. -/
def Player.more (s : Player) : Bool :=
  !(decide (s.fMaxIterations > 0) && decide (s.fMaxIterations ≤ s.fNumIteration))

def Player.left (s : Player) : Option Nat := callsLeft s.fMaxIterations s.fNumIteration

theorem Player.more_eq (s : Player) : s.more = decide (s.left ≠ some 0) :=
  stays_iff s.fMaxIterations s.fNumIteration

/-- The outcome of a call that has read `got` of a body. -/
theorem readFrame_body {s : Player} {header : TimeFrame.Header} {got : Bytes} {file : InputFile}
    (hgcount : s.fInputFile.gcount = TimeFrame.Header.size - 8)
    (hlen : TimeFrame.Header.size ≤ header.length.toNat)
    (hread : s.fInputFile.read (header.length.toNat - TimeFrame.Header.size) = (got, file)) :
    readFrame s header.encode =
      if file.gcount < TimeFrame.Header.size then .ok ({ s with fInputFile := file }, false)
      else do
        let parts ← subFrames s.fSplitMethod header.numSource.toNat (InputFile.overwrite got
          (List.replicate (header.length.toNat - TimeFrame.Header.size) 0))
        return (s.afterFrame file (header.encode :: parts),
          (s.afterFrame file (header.encode :: parts)).more) := by
  have hdecode := header.decode_encode_self
  rw [readFrame]
  simp only [hdecode, hgcount, Nat.lt_irrefl, if_false, if_neg (Nat.not_lt.mpr hlen), hread]
  rfl

/-- The read of a whole body after the header of its frame. -/
theorem readFrame_whole {s : Player} {header : TimeFrame.Header} {body rest : Bytes}
    (h : s.fInputFile.Remaining (body ++ rest))
    (hgcount : s.fInputFile.gcount = TimeFrame.Header.size - 8)
    (hlen : header.length.toNat = TimeFrame.Header.size + body.length)
    (hbody : TimeFrame.Header.size ≤ body.length) :
    ∃ file, file.Remaining rest ∧ readFrame s header.encode = (do
      let parts ← subFrames s.fSplitMethod header.numSource.toNat body
      return (s.afterFrame file (header.encode :: parts),
        (s.afterFrame file (header.encode :: parts)).more)) := by
  have hsize : body.length = header.length.toNat - TimeFrame.Header.size := by omega
  have hfull : InputFile.overwrite body
      (List.replicate (header.length.toNat - TimeFrame.Header.size) 0) = body :=
    InputFile.overwrite_of_length_eq (by rw [hsize, List.length_replicate])
  obtain ⟨file, hread, hrest, hcount⟩ := h.read hsize
  refine ⟨file, hrest, ?_⟩
  rw [readFrame_body hgcount (by omega) hread, if_neg (by omega), hfull]

/-- A call at the start of a frame comes to the read of its body. -/
theorem conditionalRun_header (mem : Uninitialised) {s : Player} {header : TimeFrame.Header}
    {bs : Bytes} (hmagic : header.magic = TimeFrame.MAGIC)
    (h : s.fInputFile.Remaining (header.encode ++ bs)) :
    ∃ file, file.Remaining bs ∧ file.gcount = TimeFrame.Header.size - 8 ∧
      conditionalRun mem s = readFrame { s with fInputFile := file } header.encode := by
  have hparts : header.encode = put 8 TimeFrame.MAGIC ++ header.encode.drop 8 := by
    rw [← hmagic, TimeFrame.Header.encode, List.drop_left' (length_put 8 _)]
  have hlen : (header.encode.drop 8).length = TimeFrame.Header.size - 8 := by
    rw [List.length_drop, TimeFrame.Header.length_encode]
  rw [hparts, List.append_assoc] at h
  obtain ⟨file, hread, hremaining, -⟩ := h.read (length_put 8 _)
  obtain ⟨file', hread', hremaining', hgcount⟩ := hremaining.read hlen
  refine ⟨file', hremaining', hgcount, ?_⟩
  have hmagicRead : field 8 0 (InputFile.overwrite (put 8 TimeFrame.MAGIC) (put 8 mem.magic)) =
      TimeFrame.MAGIC := by
    rw [InputFile.overwrite_of_length_eq (by rw [length_put, length_put])]
    simpa using field_put_self 8 TimeFrame.MAGIC []
  have hfilter : TimeFrame.MAGIC ≠ Filter.MAGIC := by decide
  have htrailer : TimeFrame.MAGIC ≠ FileSinkTrailer.MAGIC := by decide
  have hheaderRead : InputFile.overwrite (header.encode.drop 8)
      (mem.tfHeader.encode.drop 8) = header.encode.drop 8 := by
    apply InputFile.overwrite_of_length_eq
    rw [hlen, List.length_drop, TimeFrame.Header.length_encode]
  rw [conditionalRun, h.eofbit]
  simp only [Bool.false_eq_true, if_false, hread, hmagicRead, hfilter, htrailer, ne_eq,
    not_true_eq_false, hread', hheaderRead, ← hparts]

/-- One call at the start of a frame sends its messages and stops behind it. -/
theorem conditionalRun_frame (mem : Uninitialised) {s : Player} {f : Frame} {rest : Bytes}
    (h : s.fInputFile.Remaining (f.bytes ++ rest))
    (hsplit : ∀ sub ∈ f.subs, SplitsInto s.fSplitMethod bodies sub) :
    ∃ file, file.Remaining rest ∧
      conditionalRun mem s =
        .ok (s.afterFrame file (f.partsWith bodies),
          (s.afterFrame file (f.partsWith bodies)).more) := by
  have hlen : f.header.length.toNat =
      TimeFrame.Header.size + (f.subs.flatMap SubFrame.bytes).length := by
    have hheader := f.length_eq
    have hbody := f.length_body
    omega
  rw [f.bytes_eq, List.append_assoc] at h
  obtain ⟨file, hremaining, hgcount, hcall⟩ := conditionalRun_header mem f.magic_eq h
  obtain ⟨file', hrest, hframe⟩ :=
    @readFrame_whole { s with fInputFile := file } _ _ _ hremaining hgcount hlen
      f.header_size_le_body
  refine ⟨file', hrest, ?_⟩
  rw [hcall, hframe, f.numSource_eq, subFrames_flatMap_bytes hsplit]
  rfl

/-- The rest of a file that is too short for the rest of a header. -/
theorem readFrame_short {s : Player} (header : Bytes)
    (h : s.fInputFile.gcount < TimeFrame.Header.size - 8) :
    readFrame s header = .ok (s, false) := by
  rw [readFrame]
  simp only [if_pos h]

/-- A call that finds less than a header stops without sending, whatever it has found. -/
theorem conditionalRun_short (mem : Uninitialised) {s : Player} {bs : Bytes}
    (hshort : bs.length < TimeFrame.Header.size)
    (h : s.fInputFile.eofbit = true ∨ s.fInputFile.Remaining bs) :
    ∃ file, conditionalRun mem s = .ok ({ s with fInputFile := file }, false) := by
  cases h with
  | inl heof =>
      exact ⟨s.fInputFile, by rw [conditionalRun, heof, if_pos rfl]⟩
  | inr hremaining =>
      obtain ⟨got, file, hread, hnext⟩ : ∃ got file, s.fInputFile.read 8 = (got, file) ∧
          ∀ n, 16 ≤ n → (file.read n).2.good = false ∧ (file.read n).2.gcount < 16 := by
        by_cases hmagic : bs.length < 8
        · obtain ⟨file, hread, hbad, -⟩ := hremaining.read_short hmagic
          refine ⟨bs, file, hread, fun n _ => ?_⟩
          rw [InputFile.read_of_not_good hbad]
          exact ⟨InputFile.not_good_of_failbit rfl, Nat.zero_lt_succ 15⟩
        · rw [← List.take_append_drop 8 bs] at hremaining
          obtain ⟨file, hread, hrest, -⟩ :=
            hremaining.read (List.length_take_of_le (Nat.le_of_not_lt hmagic))
          refine ⟨_, file, hread, fun n hn => ?_⟩
          have hfew : (bs.drop 8).length < 16 := by
            rw [List.length_drop]
            rw [TimeFrame.Header.size] at hshort
            omega
          obtain ⟨file', hread', hbad, hgcount⟩ := hrest.read_short (Nat.lt_of_lt_of_le hfew hn)
          rw [hread', hgcount]
          exact ⟨hbad, hfew⟩
      rw [conditionalRun, hremaining.eofbit]
      simp only [Bool.false_eq_true, if_false, hread]
      split
      · refine ⟨_, readFrame_short _ ?_⟩
        simp only
        rw [InputFile.read_of_not_good (hnext _ (by decide)).1]
        exact Nat.zero_lt_succ 15
      · split
        · exact ⟨_, rfl⟩
        · split
          · exact ⟨_, rfl⟩
          · exact ⟨_, readFrame_short _ (hnext _ (by decide)).2⟩

theorem readFrame_grows {s s' : Player} {msgTFHeader : Bytes} {go : Bool}
    (h : readFrame s msgTFHeader = .ok (s', go)) : ∃ more, s'.sent = s.sent ++ more := by
  have hkept : ∃ more, s.sent = s.sent ++ more := ⟨[], (List.append_nil _).symm⟩
  rw [readFrame] at h
  dsimp only at h
  split at h
  · cases h
    exact hkept
  · split at h
    · cases h
    · split at h
      · cases h
        exact hkept
      · cases hsubs : subFrames s.fSplitMethod _ _ with
        | error fault =>
            rw [hsubs] at h
            cases h
        | ok parts =>
            rw [hsubs] at h
            cases h
            exact ⟨_, rfl⟩

theorem conditionalRun_grows (mem : Uninitialised) (s s' : Player) (go : Bool)
    (h : conditionalRun mem s = .ok (s', go)) : ∃ more, s'.sent = s.sent ++ more := by
  have hkept : ∃ more, s.sent = s.sent ++ more := ⟨[], (List.append_nil _).symm⟩
  rw [conditionalRun] at h
  dsimp only at h
  split at h
  · cases h
    exact hkept
  · split at h
    · have hgrown := readFrame_grows h
      exact hgrown
    · split at h
      · cases h
        exact hkept
      · split at h
        · cases h
          exact hkept
        · have hgrown := readFrame_grows h
          exact hgrown

theorem run_eq_playAll (mems : List Uninitialised) (s : Player) :
    run mems s = playAll conditionalRun mems s := by
  induction mems generalizing s with
  | nil => rfl
  | cons mem mems ih =>
      rw [run, playAll]
      cases conditionalRun mem s with
      | error fault => rfl
      | ok result =>
          cases result with
          | mk s' go =>
              cases go with
              | true => exact ih s'
              | false => rfl

/-- The player stands in front of the frames, whose words are cut into `bodies`. -/
structure BeforeFrames (fSplitMethod : Int) (bodies : SubFrame → List Bytes)
    (frames : List Frame) (s : Player) : Prop where
  split_eq : s.fSplitMethod = fSplitMethod
  splits : ∀ f ∈ frames, ∀ sub ∈ f.subs, SplitsInto fSplitMethod bodies sub
  file : s.fInputFile.Remaining (frames.flatMap Frame.bytes) ∨
    frames = [] ∧ s.fInputFile.eofbit = true

/-- Calls on a file of frames send them in order and then stop. -/
theorem plays_frames (fSplitMethod : Int) :
    Plays conditionalRun Player.sent Player.left (BeforeFrames fSplitMethod bodies)
      (Frame.partsWith bodies) (fun _ => True) True where
  grows := conditionalRun_grows
  good := by
    intro mem s f frames hbefore _
    cases hbefore.file with
    | inl hremaining =>
        rw [List.flatMap_cons] at hremaining
        have hsplit := hbefore.splits f List.mem_cons_self
        rw [← hbefore.split_eq] at hsplit
        obtain ⟨file, hrest, hcall⟩ := conditionalRun_frame mem hremaining hsplit
        rw [Player.more_eq] at hcall
        refine ⟨_, hcall, rfl, ⟨hbefore.split_eq, ?_, .inl hrest⟩, callsLeft_succ _ _⟩
        intro g hg
        exact hbefore.splits g (List.mem_cons_of_mem _ hg)
    | inr hend => cases hend.1
  bad := fun _ _ _ _ _ hbad => absurd trivial hbad
  goodEnd := by
    intro mem s hbefore _
    have hfile : s.fInputFile.eofbit = true ∨ s.fInputFile.Remaining [] :=
      hbefore.file.symm.imp_left And.right
    obtain ⟨file, hcall⟩ := conditionalRun_short mem (by decide) hfile
    exact ⟨_, hcall, rfl⟩
  badEnd := fun _ _ _ hbad => absurd trivial hbad

theorem Frame.field_bytes (f : Frame) (rest : Bytes) :
    field 8 0 (f.bytes ++ rest) = TimeFrame.MAGIC := by
  rw [f.bytes_eq, TimeFrame.Header.encode, f.magic_eq]
  simp only [List.append_assoc, field_put_self]

theorem preRun_eq (s : Player) (contents : Bytes) :
    preRun s contents = { s with
      fNumIteration := 0
      fInputFile := InputFile.skipSinkHeader TimeFrame.MAGIC contents } := rfl

/-- The file of the player at the start of its loop: at the first byte of a file that
starts with a frame, or at the end of an empty one. -/
theorem preRun_frames (s : Player) (frames : List Frame) :
    ∃ file, preRun s (frames.flatMap Frame.bytes) =
        { s with fNumIteration := 0, fInputFile := file } ∧
      (file.Remaining (frames.flatMap Frame.bytes) ∨ frames = [] ∧ file.eofbit = true) := by
  refine ⟨_, preRun_eq s _, ?_⟩
  cases frames with
  | nil => exact .inr ⟨rfl, rfl⟩
  | cons f frames =>
      rw [List.flatMap_cons]
      refine .inl (InputFile.skipSinkHeader_remaining ?_ (f.field_bytes _))
      rw [f.bytes_eq, List.length_append, List.length_append, TimeFrame.Header.length_encode,
        TimeFrame.Header.size]
      omega

/-- The replay of a file of frames. -/
theorem replay_frames {opts : Options} {frames : List Frame} {mems : List Uninitialised}
    (hmems : frames.length < mems.length)
    (hroom : opts.maxIterations ≤ 0 ∨ frames.length ≤ opts.maxIterations)
    (hsplit : ∀ f ∈ frames, ∀ sub ∈ f.subs, SplitsInto opts.split bodies sub) :
    ∃ s, replay opts mems (frames.flatMap Frame.bytes) = .ok (s, false) ∧
      s.sent = frames.map (Frame.partsWith bodies) := by
  obtain ⟨file, hpre, hfile⟩ := preRun_frames (initTask opts) frames
  have hbefore : BeforeFrames opts.split bodies frames
      { initTask opts with fNumIteration := 0, fInputFile := file } := ⟨rfl, hsplit, hfile⟩
  rw [replay, hpre, run_eq_playAll]
  exact ((plays_frames opts.split).playAll_iff hmems hbefore (callsLeft_zero_ne _)).mpr
    ⟨fun _ _ => trivial, le_callsLeft_zero hroom, .inl trivial⟩

end Calls

end TFBFilePlayer
end Userworks
