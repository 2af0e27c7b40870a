import Userworks.Exam6.STFBFileReplay
import Userworks.Exam6.TFBFileReplay

/-!
Replay of time frame files that end anywhere.

The bodies of the sub time frames are any bytes here. A time frame of at least one
sub time frame has a body that fills a header, so that no whole frame is taken for a
short one; but a part of a body that fills a header is taken for the whole. In the
later split methods the player also looks at the word behind the last delimiter of a
body, which at the end of the buffer is not there.
-/
namespace Userworks
namespace TFBFilePlayer

open AmQStrTdc

/-- A sub time frame whose length field covers its header and its body. -/
structure RawSubFrame where
  header : SubTimeFrame.Header
  body : Bytes
  length_eq : header.length.toNat = SubTimeFrame.Header.size + body.length

def RawSubFrame.bytes (sub : RawSubFrame) : Bytes := sub.header.encode ++ sub.body

theorem RawSubFrame.length_bytes (sub : RawSubFrame) :
    sub.bytes.length = sub.header.length.toNat := by
  rw [bytes, List.length_append, SubTimeFrame.Header.length_encode, sub.length_eq]

section Splitting

/-- The words end in a delimiter that no delimiter before it has taken along. -/
def endsAlone : List Word → Bool
  | [] => false
  | w :: ws =>
      if head w = SpillEnd ∨ head w = Heartbeat then
        match ws with
        | [] => true
        | next :: ws => if head next = Heartbeat then endsAlone ws else endsAlone (next :: ws)
      else endsAlone ws

/-- The loop over the words of a body does not depend on what follows them, or finds
a word there that is no delimiter. -/
def Ends (fSplitMethod : Int) (past : Bytes) (ws : List Word) : Prop :=
  fSplitMethod = 0 ∨ fSplitMethod = 1 ∨ endsAlone ws = false ∨
    8 ≤ past.length ∧ head (field 8 0 past) ≠ Heartbeat

/-- The words are cut into `msgs`, whatever follows them, if they end at all. -/
def Cuts (fSplitMethod : Int) (open_ ws : List Word) (msgs : List Bytes) : Prop :=
  ∀ past, (Ends fSplitMethod past ws → splitWords fSplitMethod past open_ ws = .ok msgs) ∧
    (¬ Ends fSplitMethod past ws → splitWords fSplitMethod past open_ ws = .error .undefined)

variable {fSplitMethod : Int} {open_ ws : List Word} {msgs : List Bytes}

/-- A step of the loop that only collects the word. -/
theorem Cuts.collect {open' ws' : List Word} (h : Cuts fSplitMethod open' ws' msgs)
    (hstep : ∀ past, splitWords fSplitMethod past open_ ws =
      splitWords fSplitMethod past open' ws')
    (hends : ∀ past, Ends fSplitMethod past ws ↔ Ends fSplitMethod past ws') :
    Cuts fSplitMethod open_ ws msgs := by
  intro past
  rw [hstep, hends]
  exact h past

/-- A step of the loop that emits a message. -/
theorem Cuts.emit {open' ws' : List Word} (h : Cuts fSplitMethod open' ws' msgs) (msg : Bytes)
    (hstep : ∀ past, splitWords fSplitMethod past open_ ws =
      do return msg :: (← splitWords fSplitMethod past open' ws'))
    (hends : ∀ past, Ends fSplitMethod past ws ↔ Ends fSplitMethod past ws') :
    Cuts fSplitMethod open_ ws (msg :: msgs) := by
  intro past
  rw [hstep, hends]
  constructor
  · intro hall
    rw [(h past).1 hall]
    rfl
  · intro hnone
    rw [(h past).2 hnone]
    rfl

/-- The last word, when the loop looks behind it. -/
theorem cuts_alone (h0 : fSplitMethod ≠ 0) (h1 : fSplitMethod ≠ 1) {w : Word}
    (hw : head w = SpillEnd ∨ head w = Heartbeat) :
    Cuts fSplitMethod open_ [w] [putWords (open_ ++ [w])] := by
  have halone : endsAlone [w] = true := by rw [endsAlone, if_pos hw]
  have hends : ∀ past, Ends fSplitMethod past [w] ↔
      8 ≤ past.length ∧ head (field 8 0 past) ≠ Heartbeat := by
    intro past
    simp only [Ends, h0, h1, halone, Bool.true_eq_false, false_or]
  intro past
  rw [hends, splitWords.eq_def]
  dsimp only
  rw [if_pos hw, if_neg h0, if_neg h1]
  by_cases hshort : past.length < 8
  · rw [if_pos hshort]
    exact ⟨fun hlong => absurd hlong.1 (by omega), fun _ => rfl⟩
  · rw [if_neg hshort]
    by_cases hnext : head (field 8 0 past) = Heartbeat
    · rw [if_pos hnext]
      exact ⟨fun hother => absurd hnext hother.2, fun _ => rfl⟩
    · rw [if_neg hnext]
      exact ⟨fun _ => rfl, fun hnot => absurd ⟨Nat.le_of_not_lt hshort, hnext⟩ hnot⟩

theorem ends_iff_of_early (h : fSplitMethod = 0 ∨ fSplitMethod = 1) (vs ws : List Word)
    (past : Bytes) : Ends fSplitMethod past vs ↔ Ends fSplitMethod past ws := by
  cases h with
  | inl h0 => exact ⟨fun _ => .inl h0, fun _ => .inl h0⟩
  | inr h1 => exact ⟨fun _ => .inr (.inl h1), fun _ => .inr (.inl h1)⟩

theorem ends_congr {vs ws : List Word} (h : endsAlone vs = endsAlone ws) (past : Bytes) :
    Ends fSplitMethod past vs ↔ Ends fSplitMethod past ws := by
  rw [Ends, Ends, h]

/-- The words are cut in one way or not at all. The cases are those of the loop. -/
theorem exists_cuts (fSplitMethod : Int) (open_ ws : List Word) :
    ∃ msgs, Cuts fSplitMethod open_ ws msgs := by
  induction open_, ws using splitWords.induct fSplitMethod [] with
  | case1 open_ =>
      refine ⟨[], fun past => ⟨fun _ => rfl, fun hnot => absurd ?_ hnot⟩⟩
      exact .inr (.inr (.inl rfl))
  | case2 open_ w ws hw h0 ih =>
      obtain ⟨msgs, ih⟩ := ih
      refine ⟨_, ih.emit (putWords (open_ ++ [w])) ?_ (ends_iff_of_early (.inl h0) _ _)⟩
      intro past
      rw [splitWords.eq_def]
      dsimp only
      rw [if_pos hw, if_pos h0]
  | case3 open_ w ws hw h0 h1 hopen ih =>
      obtain ⟨msgs, ih⟩ := ih
      refine ⟨_, ih.collect ?_ (ends_iff_of_early (.inr h1) _ _)⟩
      intro past
      rw [splitWords.eq_def]
      dsimp only
      rw [if_pos hw, if_neg h0, if_pos h1, if_pos hopen]
  | case4 open_ w ws hw h0 h1 hopen hclose ih =>
      obtain ⟨msgs, ih⟩ := ih
      refine ⟨_, ih.emit (putWords open_) ?_ (ends_iff_of_early (.inr h1) _ _)⟩
      intro past
      rw [splitWords.eq_def]
      dsimp only
      rw [if_pos hw, if_neg h0, if_pos h1, if_neg hopen, if_pos hclose]
  | case5 open_ w ws hw h0 h1 hopen hclose ih =>
      obtain ⟨msgs, ih⟩ := ih
      refine ⟨_, ih.emit (putWords (open_ ++ [w])) ?_ (ends_iff_of_early (.inr h1) _ _)⟩
      intro past
      rw [splitWords.eq_def]
      dsimp only
      rw [if_pos hw, if_neg h0, if_pos h1, if_neg hopen, if_neg hclose]
  | case6 open_ w hw h0 h1 next ws hnext ih =>
      obtain ⟨msgs, ih⟩ := ih
      have halone : endsAlone (w :: next :: ws) = endsAlone ws := by
        rw [endsAlone, if_pos hw, if_pos hnext]
      refine ⟨_, ih.emit (putWords (open_ ++ [w, next])) ?_ (ends_congr halone)⟩
      intro past
      rw [splitWords.eq_def]
      dsimp only
      rw [if_pos hw, if_neg h0, if_neg h1, if_pos hnext]
  | case7 open_ w hw h0 h1 next ws hnext ih =>
      obtain ⟨msgs, ih⟩ := ih
      have halone : endsAlone (w :: next :: ws) = endsAlone (next :: ws) := by
        rw [endsAlone, if_pos hw, if_neg hnext]
      refine ⟨_, ih.emit (putWords (open_ ++ [w])) ?_ (ends_congr halone)⟩
      intro past
      rw [splitWords.eq_def]
      dsimp only
      rw [if_pos hw, if_neg h0, if_neg h1, if_neg hnext]
  | case8 open_ w hw h0 h1 hpast => exact ⟨_, cuts_alone h0 h1 hw⟩
  | case9 open_ w hw h0 h1 hpast => exact absurd (Nat.zero_lt_succ 7) hpast
  | case10 open_ w hw h0 h1 hpast => exact absurd (Nat.zero_lt_succ 7) hpast
  | case11 open_ w ws hw ih =>
      obtain ⟨msgs, ih⟩ := ih
      have halone : endsAlone (w :: ws) = endsAlone ws := by
        rw [endsAlone.eq_def]
        dsimp only
        rw [if_neg hw]
      refine ⟨_, ih.collect ?_ (ends_congr halone)⟩
      intro past
      rw [splitWords.eq_def]
      dsimp only
      rw [if_neg hw]

/-- The messages that the words of a body are cut into. -/
def RawSubFrame.messages (fSplitMethod : Int) (sub : RawSubFrame) : List Bytes :=
  match splitWords fSplitMethod (put 8 0) [] (words sub.body) with
  | .ok msgs => msgs
  | .error _ => []

theorem RawSubFrame.cuts (fSplitMethod : Int) (sub : RawSubFrame) :
    Cuts fSplitMethod [] (words sub.body) (sub.messages fSplitMethod) := by
  obtain ⟨msgs, hcuts⟩ := exists_cuts fSplitMethod [] (words sub.body)
  have hends : Ends fSplitMethod (put 8 0) (words sub.body) :=
    .inr (.inr (.inr ⟨by decide, by decide⟩))
  have hsame : sub.messages fSplitMethod = msgs := by
    rw [messages, (hcuts _).1 hends]
  rwa [hsame]

end Splitting

/-- Every loop over the words of a body ends within the buffer. -/
def Readable (fSplitMethod : Int) : List RawSubFrame → Prop
  | [] => True
  | sub :: subs =>
      Ends fSplitMethod
        (sub.body.drop (8 * (sub.body.length / 8)) ++ subs.flatMap RawSubFrame.bytes)
        (words sub.body) ∧ Readable fSplitMethod subs

/-- A time frame of at least one sub time frame, with its length and their number in
its header. -/
structure RawFrame where
  header : TimeFrame.Header
  subs : List RawSubFrame
  magic_eq : header.magic = TimeFrame.MAGIC
  length_eq : header.length.toNat =
    TimeFrame.Header.size + (subs.map fun sub => sub.header.length.toNat).sum
  numSource_eq : header.numSource.toNat = subs.length
  subs_ne_nil : subs ≠ []

namespace RawFrame

def body (f : RawFrame) : Bytes := f.subs.flatMap RawSubFrame.bytes

def bytes (f : RawFrame) : Bytes := f.header.encode ++ f.body

/-- The messages of a time frame. -/
def parts (fSplitMethod : Int) (f : RawFrame) : List Bytes :=
  f.header.encode :: f.subs.flatMap fun sub => sub.header.encode :: sub.messages fSplitMethod

def Good (fSplitMethod : Int) (f : RawFrame) : Prop := Readable fSplitMethod f.subs

theorem length_body (f : RawFrame) :
    f.header.length.toNat = TimeFrame.Header.size + f.body.length := by
  rw [f.length_eq, body, List.length_flatMap]
  exact congrArg _ (congrArg List.sum (List.map_congr_left fun sub _ => sub.length_bytes.symm))

/-- A body holds at least one sub time frame header. -/
theorem header_size_le_body (f : RawFrame) :
    SubTimeFrame.Header.size ≤ f.body.length := by
  obtain ⟨sub, rest, hsubs⟩ := List.exists_cons_of_ne_nil f.subs_ne_nil
  rw [body, hsubs, List.flatMap_cons, List.length_append, sub.length_bytes, sub.length_eq]
  omega

theorem length_bytes (f : RawFrame) :
    f.bytes.length = TimeFrame.Header.size + f.body.length := by
  rw [bytes, List.length_append, TimeFrame.Header.length_encode]

end RawFrame

theorem subFrames_raw (fSplitMethod : Int) (subs : List RawSubFrame) :
    (Readable fSplitMethod subs →
      subFrames fSplitMethod subs.length (subs.flatMap RawSubFrame.bytes) =
        .ok (subs.flatMap fun sub => sub.header.encode :: sub.messages fSplitMethod)) ∧
    (¬ Readable fSplitMethod subs →
      subFrames fSplitMethod subs.length (subs.flatMap RawSubFrame.bytes) =
        .error .undefined) := by
  induction subs with
  | nil => exact ⟨fun _ => rfl, fun hnot => absurd trivial hnot⟩
  | cons sub subs ih =>
      have hcuts := sub.cuts fSplitMethod
        (sub.body.drop (8 * (sub.body.length / 8)) ++ subs.flatMap RawSubFrame.bytes)
      rw [List.flatMap_cons, List.flatMap_cons, List.length_cons, Readable, RawSubFrame.bytes,
        subFrames_header sub.length_eq]
      constructor
      · intro hall
        rw [hcuts.1 hall.1, ih.1 hall.2]
        rfl
      · intro hnot
        by_cases hends : Ends fSplitMethod
            (sub.body.drop (8 * (sub.body.length / 8)) ++ subs.flatMap RawSubFrame.bytes)
            (words sub.body)
        · rw [hcuts.1 hends, ih.2 fun hrest => hnot ⟨hends, hrest⟩]
          rfl
        · rw [hcuts.2 hends]
          rfl

section Calls

theorem conditionalRun_whole (mem : Uninitialised) {s : Player} {f : RawFrame} {rest : Bytes}
    (h : s.fInputFile.Remaining (f.bytes ++ rest)) :
    ∃ file, file.Remaining rest ∧
      (f.Good s.fSplitMethod → conditionalRun mem s =
        .ok (s.afterFrame file (f.parts s.fSplitMethod),
          (s.afterFrame file (f.parts s.fSplitMethod)).more)) ∧
      (¬ f.Good s.fSplitMethod → conditionalRun mem s = .error .undefined) := by
  rw [RawFrame.bytes, List.append_assoc] at h
  obtain ⟨file, hremaining, hgcount, hcall⟩ := conditionalRun_header mem f.magic_eq h
  obtain ⟨file', hrest, hframe⟩ :=
    @readFrame_whole { s with fInputFile := file } _ _ _ hremaining hgcount f.length_body
      (Nat.le_trans (by decide) f.header_size_le_body)
  have hsubs := subFrames_raw s.fSplitMethod f.subs
  rw [f.numSource_eq, RawFrame.body] at hframe
  refine ⟨file', hrest, ?_, ?_⟩
  · intro hgood
    rw [hcall, hframe, hsubs.1 hgood]
    rfl
  · intro hbad
    rw [hcall, hframe, hsubs.2 hbad]
    rfl

/-- A part of a frame that has its whole header. -/
theorem RawFrame.take_bytes (f : RawFrame) {n : Nat} (hn : TimeFrame.Header.size ≤ n) :
    f.bytes.take n = f.header.encode ++ f.body.take (n - TimeFrame.Header.size) := by
  rw [RawFrame.bytes, List.take_append, TimeFrame.Header.length_encode,
    List.take_of_length_le (by rwa [TimeFrame.Header.length_encode])]

/-- A call in front of a part of a frame sends something, or does not return, if enough
of the body is there. -/
theorem conditionalRun_torn (mem : Uninitialised) {s : Player} {tail : Bytes}
    (htorn : Torn RawFrame.bytes tail) (h : s.fInputFile.Remaining tail) :
    if tail.length - TimeFrame.Header.size < TimeFrame.Header.size then
      ∃ file, conditionalRun mem s = .ok ({ s with fInputFile := file }, false)
    else
      ∀ s' go, conditionalRun mem s = .ok (s', go) → s'.sent ≠ s.sent := by
  by_cases hheader : tail.length < TimeFrame.Header.size
  · rw [if_pos (by omega)]
    exact conditionalRun_short mem hheader (.inr h)
  · cases htorn with
    | inl hnone => exact absurd (by simp [hnone, TimeFrame.Header.size]) hheader
    | inr hpart =>
        obtain ⟨f, n, hn, rfl⟩ := hpart
        rw [List.length_take_of_le (Nat.le_of_lt hn)] at hheader ⊢
        rw [f.length_bytes] at hn
        have hsize := f.length_body
        have hlen : (f.body.take (n - TimeFrame.Header.size)).length =
            n - TimeFrame.Header.size := List.length_take_of_le (by omega)
        rw [f.take_bytes (Nat.le_of_not_lt hheader)] at h
        obtain ⟨file, hbody, hgcount, hcall⟩ := conditionalRun_header mem f.magic_eq h
        obtain ⟨file', hread, -, hcount⟩ := hbody.read_short
          (n := f.header.length.toNat - TimeFrame.Header.size) (by omega)
        have hframe := @readFrame_body { s with fInputFile := file } f.header _ _ hgcount
          (by omega) hread
        rw [hlen] at hcount
        rw [hcount] at hframe
        rw [hcall, hframe]
        split
        · exact ⟨file', rfl⟩
        · intro s' go hrun
          cases hsubs : subFrames s.fSplitMethod f.header.numSource.toNat (InputFile.overwrite
              (f.body.take (n - TimeFrame.Header.size))
              (List.replicate (f.header.length.toNat - TimeFrame.Header.size) 0)) with
          | error fault =>
              rw [hsubs] at hrun
              cases hrun
          | ok parts =>
              rw [hsubs] at hrun
              cases hrun
              intro hsame
              cases List.append_right_eq_self.mp hsame

/-- The player stands in front of the frames `rs` and of a part of another one. -/
structure Before (fSplitMethod : Int) (tail : Bytes) (rs : List RawFrame) (s : Player) : Prop where
  split_eq : s.fSplitMethod = fSplitMethod
  file : s.fInputFile.Before RawFrame.bytes tail rs

theorem plays (fSplitMethod : Int) {tail : Bytes} (htorn : Torn RawFrame.bytes tail) :
    Plays conditionalRun Player.sent Player.left (Before fSplitMethod tail)
      (RawFrame.parts fSplitMethod) (RawFrame.Good fSplitMethod)
      (tail.length - TimeFrame.Header.size < TimeFrame.Header.size) where
  grows := conditionalRun_grows
  good := by
    intro mem s f rs hbefore hgood
    obtain ⟨file, hrest, hcall, -⟩ := conditionalRun_whole mem hbefore.file.cons
    rw [hbefore.split_eq] at hcall
    rw [hcall hgood, Player.more_eq]
    exact ⟨_, rfl, rfl, ⟨hbefore.split_eq, .inl hrest⟩, callsLeft_succ _ _⟩
  bad := by
    intro mem s f rs hbefore hbad s' go hrun
    obtain ⟨file, -, -, hcall⟩ := conditionalRun_whole mem hbefore.file.cons
    rw [hbefore.split_eq] at hcall
    rw [hcall hbad] at hrun
    cases hrun
  goodEnd := by
    intro mem s hbefore hgood
    have hstops : ∃ file, conditionalRun mem s = .ok ({ s with fInputFile := file }, false) := by
      cases hbefore.file with
      | inl hremaining =>
          have hcall := conditionalRun_torn mem htorn hremaining
          rwa [if_pos hgood] at hcall
      | inr hend =>
          have hshort : tail.length < TimeFrame.Header.size := Nat.lt_trans hend.2.1 (by decide)
          exact conditionalRun_short mem hshort (.inl hend.2.2)
    obtain ⟨file, hcall⟩ := hstops
    exact ⟨_, hcall, rfl⟩
  badEnd := by
    intro mem s hbefore hbad
    cases hbefore.file with
    | inl hremaining =>
        have hcall := conditionalRun_torn mem htorn hremaining
        rwa [if_neg hbad] at hcall
    | inr hend =>
        refine absurd ?_ hbad
        rw [TimeFrame.Header.size]
        omega

theorem RawFrame.field_bytes (f : RawFrame) (rest : Bytes) :
    field 8 0 (f.bytes ++ rest) = TimeFrame.MAGIC := by
  rw [bytes, TimeFrame.Header.encode, f.magic_eq]
  simp only [List.append_assoc, field_put_self]

/-- The frames and the part of a frame behind them are what the player finds in its
file when its loop starts. -/
theorem preRun_before (opts : Options) (rs : List RawFrame) {tail : Bytes}
    (htorn : Torn RawFrame.bytes tail) :
    Before opts.split tail rs
      (preRun (initTask opts) (rs.flatMap RawFrame.bytes ++ tail)) where
  split_eq := rfl
  file := by
    rw [preRun_eq]
    refine InputFile.skipSinkHeader_before ?_ RawFrame.field_bytes rs htorn
    intro f
    rw [f.length_bytes, TimeFrame.Header.size]
    omega

/-- The replay of a cut file sends the messages of the frames before the cut, no others,
and stops. -/
def Faithful (opts : Options) (frames : List RawFrame) (cut : Nat) (mems : List Uninitialised) :
    Prop :=
  ∃ s, replay opts mems ((frames.flatMap RawFrame.bytes).take cut) = .ok (s, false) ∧
    s.sent = (whole RawFrame.bytes cut frames).map (RawFrame.parts opts.split)

theorem faithful_iff (opts : Options) (frames : List RawFrame) (cut : Nat)
    {mems : List Uninitialised} (hmems : frames.length < mems.length) :
    Faithful opts frames cut mems ↔
      (∀ f ∈ whole RawFrame.bytes cut frames, f.Good opts.split) ∧
      (∀ n ∈ callsLeft opts.maxIterations 0, (whole RawFrame.bytes cut frames).length ≤ n) ∧
      ((tornBytes RawFrame.bytes cut frames).length - TimeFrame.Header.size <
          TimeFrame.Header.size ∨
        callsLeft opts.maxIterations 0 = some (whole RawFrame.bytes cut frames).length) := by
  have htorn := tornBytes_torn RawFrame.bytes cut frames
  have hbefore := preRun_before opts (whole RawFrame.bytes cut frames) htorn
  have hcalls : (whole RawFrame.bytes cut frames).length < mems.length :=
    Nat.lt_of_le_of_lt (whole_sublist RawFrame.bytes cut frames).length_le hmems
  have hleft : (preRun (initTask opts) ((frames.flatMap RawFrame.bytes).take cut)).left ≠
      some 0 := callsLeft_zero_ne _
  rw [Faithful, replay, run_eq_playAll]
  rw [take_flatMap_eq] at hleft ⊢
  exact (plays opts.split htorn).playAll_iff hcalls hbefore hleft

end Calls

end TFBFilePlayer

/-- Exactly when the players neither lose nor invent frames. -/
theorem replays_faithful_iff (cut : Nat) (stfb : STFBFilePlayer.Options)
    (subFrames : List STFBFilePlayer.RawFrame) (headers : List SubTimeFrame.Header)
    (hheaders : subFrames.length < headers.length) (tfb : TFBFilePlayer.Options)
    (frames : List TFBFilePlayer.RawFrame) (mems : List TFBFilePlayer.Uninitialised)
    (hmems : frames.length < mems.length) :
    (STFBFilePlayer.Faithful stfb subFrames cut headers ↔
      (∀ f ∈ whole STFBFilePlayer.RawFrame.bytes cut subFrames,
        SubTimeFrame.Header.size ≤ f.body.length) ∧
      (∀ n ∈ callsLeft stfb.maxIterations 0,
        (whole STFBFilePlayer.RawFrame.bytes cut subFrames).length ≤ n) ∧
      ((tornBytes STFBFilePlayer.RawFrame.bytes cut subFrames).length - SubTimeFrame.Header.size <
          SubTimeFrame.Header.size ∨
        callsLeft stfb.maxIterations 0 =
          some (whole STFBFilePlayer.RawFrame.bytes cut subFrames).length)) ∧
    (TFBFilePlayer.Faithful tfb frames cut mems ↔
      (∀ f ∈ whole TFBFilePlayer.RawFrame.bytes cut frames,
        TFBFilePlayer.Readable tfb.split f.subs) ∧
      (∀ n ∈ callsLeft tfb.maxIterations 0,
        (whole TFBFilePlayer.RawFrame.bytes cut frames).length ≤ n) ∧
      ((tornBytes TFBFilePlayer.RawFrame.bytes cut frames).length - TimeFrame.Header.size <
          TimeFrame.Header.size ∨
        callsLeft tfb.maxIterations 0 =
          some (whole TFBFilePlayer.RawFrame.bytes cut frames).length)) :=
  ⟨STFBFilePlayer.faithful_iff stfb subFrames cut hheaders,
    TFBFilePlayer.faithful_iff tfb frames cut hmems⟩

section Inputs

/-- A sub time frame with a body of zero bytes. -/
def zeroFrame (size : Nat) (h : SubTimeFrame.Header.size + size < 2 ^ 32) :
    STFBFilePlayer.RawFrame where
  header := { length := BitVec.ofNat 32 (SubTimeFrame.Header.size + size) }
  body := List.replicate size 0
  magic_eq := rfl
  length_eq := by
    rw [BitVec.toNat_ofNat, Nat.mod_eq_of_lt h, List.length_replicate]

/-- A time frame of one empty sub time frame. -/
def oneSource : TFBFilePlayer.RawFrame where
  header := { length := 72, numSource := 1 }
  subs := [{ header := { length := 48 }, body := [], length_eq := rfl }]
  magic_eq := rfl
  length_eq := rfl
  numSource_eq := rfl
  subs_ne_nil := List.cons_ne_nil _ _

set_option maxRecDepth 4000 in
/-- A whole sub time frame without data is lost, and a longer one without its last byte
and the first half of a time frame are sent. -/
theorem replays_not_faithful :
    ¬ STFBFilePlayer.Faithful {} [zeroFrame 0 (by decide)] 48 [{}, {}] ∧
    ¬ STFBFilePlayer.Faithful {} [zeroFrame 49 (by decide)] 96 [{}, {}] ∧
    ¬ TFBFilePlayer.Faithful {} [oneSource] 48 [⟨0, {}⟩, ⟨0, {}⟩] := by
  refine ⟨?_, ?_, ?_⟩
  · rw [STFBFilePlayer.faithful_iff _ _ _ (by decide)]
    intro hall
    exact Nat.not_succ_le_zero 47 (hall.1 _ List.mem_cons_self)
  · rw [STFBFilePlayer.faithful_iff _ _ _ (by decide)]
    intro hall
    cases hall.2.2 with
    | inl hshort => exact absurd hshort (by decide)
    | inr hlast => cases hlast
  · rw [TFBFilePlayer.faithful_iff _ _ _ (by decide)]
    intro hall
    cases hall.2.2 with
    | inl hshort => exact absurd hshort (by decide)
    | inr hlast => cases hlast

/-- A body as long as a header, and a time frame behind whose header the file ends. -/
theorem replays_faithful_iff_short :
    STFBFilePlayer.Faithful {} [zeroFrame 48 (by decide)] 96 [{}, {}] ∧
    TFBFilePlayer.Faithful {} [oneSource, oneSource] 96 [⟨0, {}⟩, ⟨0, {}⟩, ⟨0, {}⟩] := by
  obtain ⟨hstfb, htfb⟩ := replays_faithful_iff 96 {} [zeroFrame 48 (by decide)] [{}, {}]
    (by decide) {} [oneSource, oneSource] [⟨0, {}⟩, ⟨0, {}⟩, ⟨0, {}⟩] (by decide)
  constructor
  · refine hstfb.mpr ⟨?_, nofun, .inl (by decide)⟩
    intro f hf
    cases List.mem_singleton.mp hf
    decide
  · refine htfb.mpr ⟨?_, nofun, .inl (by decide)⟩
    intro f hf
    cases List.mem_singleton.mp hf
    exact ⟨.inr (.inr (.inl rfl)), trivial⟩

end Inputs

end Userworks
