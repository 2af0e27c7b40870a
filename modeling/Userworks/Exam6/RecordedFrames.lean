import Userworks.E16.SinkRuns
import Userworks.Exam6.MessageSplitting
import Userworks.Exam6.TimeFrameBuilding
import Userworks.Utility.FileRuns

/-!
Time frames that are built, recorded and played back: the time frame builder, a file
sink that merges the parts of a message, and the player of time frame files, one behind
the other. What the builder sends for sources that keep to the layout of a split method
are the time frames that the player understands, and a branch of a file holds whole
ones.
-/
namespace Userworks

/-- The messages of a sub time frame. -/
def TFBFilePlayer.SubFrame.parts (sub : SubFrame) : List Bytes :=
  sub.header.encode :: sub.messages.map putWords

namespace TimeFrameBuilder

open TFBFilePlayer (SubFrame Frame Layout Player Uninitialised replay)
open E16 (FileUtil FileSink Files FairMQParts FileFault)

/-! ### What the builder sends -/

/-- A sub time frame of a source that keeps to the layout of a split method. -/
def SentBySource (split : Int) (size : Nat) (a : Arrival) : Prop :=
  ∃ sub : SubFrame, a.parts = sub.parts ∧ sub.messages ≠ [] ∧ Layout split sub.messages ∧
    sub.header.length.toNat ≤ size

def Event.message : Event → Option FairMQParts
  | .sent _ _ outParts _ _ => some outParts
  | .discarded _ _ _ => none

/-- The messages of the output channel. -/
def State.messages (s : State) : List FairMQParts := s.events.filterMap Event.message

variable {cfg : Config} {clock : Nat → Int} {split : Int} {size : Nat}

theorem SentBySource.wellFormed {a : Arrival} (h : SentBySource split size a) : a.WellFormed := by
  obtain ⟨sub, hparts, hsome, -, -⟩ := h
  refine ⟨?_, ?_⟩
  · rw [hparts, SubFrame.parts, List.length_cons, List.length_map]
    exact Nat.succ_le_succ (List.length_pos_iff.mpr hsome)
  · rw [hparts, SubFrame.parts, List.headD_cons, SubTimeFrame.Header.length_encode]

theorem totalLength_parts (sub : SubFrame) :
    totalLength (SubFrame.parts sub) = sub.header.length.toNat := by
  rw [← sub.length_bytes, SubFrame.bytes, ← TFBFilePlayer.flatten_map_putWords,
    ← List.flatten_cons, List.length_flatten]
  rfl

/-- The sub time frames of a group. -/
theorem exists_subFrames {members : List Arrival}
    (h : ∀ a ∈ members, SentBySource split size a) :
    ∃ subs : List SubFrame, subs.length = members.length ∧
      members.flatMap Arrival.parts = subs.flatMap SubFrame.parts ∧
      (∀ sub ∈ subs, Layout split sub.messages) ∧
      members.length ≤ (subs.map fun sub => sub.header.length.toNat).sum ∧
      (subs.map fun sub => sub.header.length.toNat).sum ≤ members.length * size := by
  induction members with
  | nil =>
      exact ⟨[], rfl, rfl, fun _ h => absurd h List.not_mem_nil, Nat.zero_le _, Nat.zero_le _⟩
  | cons a members ih =>
      obtain ⟨sub, hparts, -, hlayout, hsize⟩ := h a List.mem_cons_self
      obtain ⟨subs, hlength, hflat, hlayouts, hlow, hhigh⟩ :=
        ih fun b hb => h b (List.mem_cons_of_mem _ hb)
      refine ⟨sub :: subs, ?_, ?_, ?_, ?_, ?_⟩
      · rw [List.length_cons, List.length_cons, hlength]
      · rw [List.flatMap_cons, List.flatMap_cons, hparts, hflat]
      · intro other hother
        cases List.mem_cons.mp hother with
        | inl heq => exact heq ▸ hlayout
        | inr hmem => exact hlayouts other hmem
      · have hheader := sub.length_eq
        rw [SubTimeFrame.Header.size] at hheader
        rw [List.map_cons, List.sum_cons, List.length_cons]
        omega
      · rw [List.map_cons, List.sum_cons, List.length_cons, Nat.succ_mul]
        omega

theorem totalLength_flatMap_parts (subs : List SubFrame) :
    totalLength (subs.flatMap SubFrame.parts) =
      (subs.map fun sub => sub.header.length.toNat).sum := by
  induction subs with
  | nil => rfl
  | cons sub subs ih =>
      rw [List.flatMap_cons, totalLength, List.map_append, List.sum_append_nat, List.map_cons,
        List.sum_cons]
      exact congrArg₂ (· + ·) (totalLength_parts sub) ih

/-- A message of the builder is a time frame of the player. -/
theorem exists_frame (hsource : 1 ≤ cfg.fNumSource)
    (hsize : TimeFrame.Header.size + cfg.fNumSource * size < 2 ^ 31) {stfId : BitVec 32}
    {tfBuf : List STFBuffer} (hfull : tfBuf.length = cfg.fNumSource)
    (h : ∀ a ∈ arrivals tfBuf, SentBySource split size a) :
    ∃ f : Frame, (frameHeader cfg stfId tfBuf).encode :: (arrivals tfBuf).flatMap Arrival.parts =
      f.parts ∧ ∀ sub ∈ f.subs, Layout split sub.messages := by
  have hlength : (arrivals tfBuf).length = cfg.fNumSource := by
    rw [arrivals, List.length_map, hfull]
  obtain ⟨subs, hsubs, hflat, hlayouts, hlow, hhigh⟩ := exists_subFrames h
  rw [hlength] at hsubs hlow hhigh
  have htotal : totalLength ((arrivals tfBuf).flatMap Arrival.parts) =
      (subs.map fun sub => sub.header.length.toNat).sum := by
    rw [hflat, totalLength_flatMap_parts]
  have hheader : (frameHeader cfg stfId tfBuf).length.toNat =
      TimeFrame.Header.size + (subs.map fun sub => sub.header.length.toNat).sum := by
    rw [frameHeader_length, htotal, TimeFrame.Header.size]
    rw [htotal]
    rw [TimeFrame.Header.size] at hsize
    omega
  have hsome : subs ≠ [] := List.length_pos_iff.mp (hsubs ▸ hsource)
  refine ⟨⟨frameHeader cfg stfId tfBuf, subs, rfl, hheader, ?_, hsome⟩, ?_, hlayouts⟩
  · rw [hsubs]
    exact Nat.mod_eq_of_lt (by omega)
  · rw [hflat]
    rfl

/-- What is sent are time frames of the player. -/
theorem exists_frames (hsource : 1 ≤ cfg.fNumSource)
    (hsize : TimeFrame.Header.size + cfg.fNumSource * size < 2 ^ 31) {received : List Arrival}
    (hsources : ∀ a ∈ received, SentBySource split size a) {events : List Event}
    (hevents : ∀ event ∈ events, event.Sound cfg clock received) :
    ∃ frames : List Frame, events.filterMap Event.message = frames.map Frame.parts ∧
      ∀ f ∈ frames, ∀ sub ∈ f.subs, Layout split sub.messages := by
  induction events with
  | nil => exact ⟨[], rfl, fun _ h => absurd h List.not_mem_nil⟩
  | cons event events ih =>
      obtain ⟨frames, hframes, hlayouts⟩ := ih fun e he => hevents e (List.mem_cons_of_mem _ he)
      have hevent := hevents event List.mem_cons_self
      cases event with
      | sent stfId tfBuf outParts dqmParts decimatorParts =>
          obtain ⟨hfull, ⟨ticks, hcollected⟩, hparts⟩ := hevent
          obtain ⟨f, hf, hlayout⟩ := @exists_frame cfg split size hsource hsize stfId tfBuf hfull
            fun a ha => hsources a (hcollected.arrived.subset ha)
          refine ⟨f :: frames, ?_, ?_⟩
          · rw [List.map_cons, ← hframes, ← hf, ← hparts]
            rfl
          · intro g hg
            cases List.mem_cons.mp hg with
            | inl heq => exact heq ▸ hlayout
            | inr hmem => exact hlayouts g hmem
      | discarded stfId tfBuf now => exact ⟨frames, hframes, hlayouts⟩

theorem length_message_le (hsource : 1 ≤ cfg.fNumSource) {received : List Arrival}
    {events : List Event} (hevents : ∀ event ∈ events, event.Sound cfg clock received) :
    (events.filterMap Event.message).length ≤ (events.flatMap Event.sentArrivals).length := by
  induction events with
  | nil => exact Nat.le_refl 0
  | cons event events ih =>
      have hrest := ih fun e he => hevents e (List.mem_cons_of_mem _ he)
      have hevent := hevents event List.mem_cons_self
      rw [List.flatMap_cons, List.length_append]
      cases event with
      | sent stfId tfBuf outParts dqmParts decimatorParts =>
          have hlength : (Event.sentArrivals
              (.sent stfId tfBuf outParts dqmParts decimatorParts)).length = cfg.fNumSource :=
            (List.length_map _).trans hevent.1
          change (events.filterMap Event.message).length + 1 ≤ _
          omega
      | discarded stfId tfBuf now => exact hrest.trans (Nat.le_add_left _ _)

/-- Each sub time frame is sent in at most one message. -/
theorem length_messages_le (hsource : 1 ≤ cfg.fNumSource) {received : List Arrival} {s : State}
    (hsound : Sound cfg clock received s) (hcount : ∀ a, s.count a = received.count a) :
    s.messages.length ≤ received.length := by
  refine (length_message_le hsource hsound.events).trans (List.Subperm.length_le ?_)
  rw [List.subperm_ext_iff]
  intro a _
  rw [← hcount, State.count, State.sent, Nat.add_assoc]
  exact Nat.le_add_right _ _

/-! ### What is played back -/

/-- The frames of a branch. -/
theorem exists_player {opts : TFBFilePlayer.Options} {frames : List Frame}
    (hlayouts : ∀ f ∈ frames, ∀ sub ∈ f.subs, Layout opts.split sub.messages)
    {mems : List Uninitialised} (hmems : frames.length < mems.length)
    (hroom : opts.maxIterations ≤ 0 ∨ frames.length ≤ opts.maxIterations) :
    ∃ player : Player, replay opts mems (frames.flatMap Frame.bytes) = .ok (player, false) ∧
      player.sent = frames.map Frame.parts :=
  TFBFilePlayer.replay_frames hmems hroom fun f hf sub hsub => (hlayouts f hf sub hsub).splitWords

/-- The branches of a recording, each with its own player. -/
theorem exists_players {opts : TFBFilePlayer.Options} {mems : List Uninitialised} {files : Files}
    {names : List Text} {groups : List (List Frame)}
    (hfiles : names.map files = groups.map fun group => some (group.flatMap Frame.bytes))
    (hlayouts : ∀ f ∈ groups.flatten, ∀ sub ∈ f.subs, Layout opts.split sub.messages)
    (hmems : groups.flatten.length < mems.length)
    (hroom : opts.maxIterations ≤ 0 ∨ groups.flatten.length ≤ opts.maxIterations) :
    ∃ players : List Player,
      List.Forall₂ (fun name player => ∃ contents, files name = some contents ∧
        replay opts mems contents = .ok (player, false)) names players ∧
      players.flatMap Player.sent = groups.flatten.map Frame.parts := by
  induction groups generalizing names with
  | nil =>
      obtain rfl := List.map_eq_nil_iff.mp hfiles
      exact ⟨[], .nil, rfl⟩
  | cons group groups ih =>
      rw [List.map_cons, List.map_eq_cons_iff] at hfiles
      obtain ⟨name, names', rfl, hname, hnames⟩ := hfiles
      rw [List.flatten_cons] at hlayouts hmems hroom
      rw [List.length_append] at hmems hroom
      obtain ⟨player, hreplay, hsent⟩ := @exists_player opts group
        (fun f hf => hlayouts f (List.mem_append_left _ hf)) mems (by omega) (by omega)
      obtain ⟨players, hplayers, hrest⟩ := ih hnames
        (fun f hf => hlayouts f (List.mem_append_right _ hf)) (by omega) (by omega)
      refine ⟨player :: players, .cons ⟨_, hname, hreplay⟩ hplayers, ?_⟩
      rw [List.flatMap_cons, List.flatten_cons, List.map_append, hsent, hrest]

theorem length_flatten_bytes_le (frames : List Frame) :
    (frames.map Frame.bytes).flatten.length ≤ frames.length * 2 ^ 32 := by
  induction frames with
  | nil => exact Nat.zero_le _
  | cons f frames ih =>
      have hbody := f.length_body
      have hlength := f.header.length.isLt
      have hsize := f.length_eq
      rw [List.map_cons, List.flatten_cons, List.length_append, f.bytes_eq, List.length_append,
        TimeFrame.Header.length_encode, List.length_cons, Nat.succ_mul]
      omega

/-- What is built is played back: for sources that keep to the layout of a split method,
the time frames that the builder sends in a run, written by a file sink to any number of
branches and read by a player for each branch, are sent again as the same messages in
the same order. Every send of the builder and of the players succeeds here. -/
theorem recorded_frames_replayed {cfg : Config} {clock : Nat → Int} (hclock : SteadyClock clock)
    (hsource : 1 ≤ cfg.fNumSource) {opts : TFBFilePlayer.Options} {size : Nat}
    (hsize : TimeFrame.Header.size + cfg.fNumSource * size < 2 ^ 31) {inputs : List Input}
    (hsources : ∀ a ∈ receivedBy inputs, SentBySource opts.split size a)
    (hnumber : (receivedBy inputs).length < 2 ^ 31) (date : Text)
    (compress : Text → E16.Bytes → E16.Bytes) {o : E16.Options} {runNumber : Int}
    (ho : FileUtil.Covered { o with runNumber := some runNumber }) (m fNThreads : Nat)
    {files : Files} {opened : Files × FileUtil}
    (hopen : FileUtil.openFile date (files, FileUtil.clearBranch
      (FileUtil.init { o with runNumber := some runNumber } { fMaxBranchSize := m })) [] =
        .ok (true, opened))
    (hfree : opened.2.fOpenmode = "create".toList ∨ opened.2.fOpenmode = "new".toList →
      ∀ n name, FileUtil.branchName date opened.2 (n + 1) = .ok name → files name = none)
    {mems : List Uninitialised} (hmems : (receivedBy inputs).length < mems.length)
    (hroom : opts.maxIterations ≤ 0 ∨ (receivedBy inputs).length ≤ opts.maxIterations) :
    ∃ s start sink, run cfg clock {} inputs = .ok s ∧
      FileSink.preRun date runNumber (FileSink.initTask o m 0 true fNThreads files) = .ok start ∧
      s.messages.foldlM (FileSink.writeMultipartData date compress) start = .ok sink ∧
      ∃ players : List Player,
        List.Forall₂ (fun name player => ∃ contents, sink.files name = some contents ∧
          replay opts mems contents = .ok (player, false)) sink.fFile.fBranchFilePath players ∧
        players.flatMap Player.sent = s.messages := by
  have hempty : Sound cfg clock [] {} :=
    ⟨List.nodup_nil, fun _ hentry => absurd hentry List.not_mem_nil,
      fun _ hevent => absurd hevent List.not_mem_nil⟩
  obtain ⟨s, hrun, hsound, hcount⟩ := hempty.run hclock hsource inputs
    fun a ha => (hsources a ha).wellFormed
  rw [List.nil_append] at hsound
  have hmessages : s.messages.length ≤ (receivedBy inputs).length :=
    length_messages_le hsource hsound fun a => (hcount a).trans (Nat.zero_add _)
  obtain ⟨frames, hframes, hlayouts⟩ := exists_frames hsource hsize hsources hsound.events
  change s.messages = _ at hframes
  have hnframes : frames.length ≤ (receivedBy inputs).length := by
    rw [hframes, List.length_map] at hmessages
    exact hmessages
  have hwrites : s.messages.map List.flatten = frames.map Frame.bytes := by
    rw [hframes, List.map_map]
    rfl
  have hbytes := length_flatten_bytes_le frames
  obtain ⟨written, hwritten, -, -, branches, hitems, hpaths, -⟩ :=
    @FileUtil.short_run_lossless date compress _ ho m files opened hopen (frames.map Frame.bytes)
      (by rw [List.length_map]; omega) (by omega) hfree
  have hext := (ho.prepared m).direct
  rw [FileSink.init_runNumber] at hext
  have hstart := @FileSink.preRun_direct date o m 0 fNThreads true files runNumber true opened hext
    hopen
  rw [← hwrites] at hwritten
  obtain ⟨sink, hsink, hfiles, hfile⟩ := @FileSink.foldlM_merged date compress
    { fMaxIteration := 0, fMergeMessage := true, fWorker := false, files := opened.1,
      fFile := opened.2 } s.messages written rfl (Or.inl rfl) (by dsimp only; omega) (Or.inl rfl)
    hwritten
  obtain ⟨groups, hgroups, hbranches⟩ := exists_batches_of_map hitems
  refine ⟨s, _, sink, hrun, hstart, hsink, ?_⟩
  rw [hfiles, hfile, hframes, ← hgroups]
  refine exists_players ?_ (hgroups ▸ hlayouts) (by rw [hgroups]; omega) (by rw [hgroups]; omega)
  rw [hpaths, hbranches, List.map_map]
  rfl

/-- A sub time frame of time frame 7 with a data word and a pair of delimiters in messages of
their own. -/
def sevenFrame : SubFrame where
  header := { timeFrameId := 7, length := 72 }
  messages := [[0x2c00000000000000#64], [0x7000000000000000#64, 0x7000000000000000#64]]
  length_eq := by decide

/-- Two sources, and a branch for every time frame. -/
theorem recorded_frames_replayed_two_sources :
    let inputs : List Input :=
      [⟨some ⟨0, sevenFrame.parts⟩, id, fun _ => .refl _⟩,
        ⟨some ⟨1, sevenFrame.parts⟩, List.reverse, List.reverse_perm⟩]
    let o := FileUtil.everyWrite "recreate".toList
    let opts : TFBFilePlayer.Options := { split := 1 }
    let mems : List Uninitialised := List.replicate 3 ⟨0, {}⟩
    ∃ s start sink, run { fNumSource := 2 } (fun n => (n : Int)) {} inputs = .ok s ∧
      FileSink.preRun [] 1 (FileSink.initTask o 0 0 true 1 FileUtil.secondBranch) = .ok start ∧
      s.messages.foldlM (FileSink.writeMultipartData [] fun _ src => src) start = .ok sink ∧
      ∃ players : List Player,
        List.Forall₂ (fun name player => ∃ contents, sink.files name = some contents ∧
          replay opts mems contents = .ok (player, false)) sink.fFile.fBranchFilePath players ∧
        players.flatMap Player.sent = s.messages := by
  intro inputs o opts mems
  have hopen : ∃ opened, FileUtil.openFile [] (FileUtil.secondBranch, FileUtil.clearBranch
      (FileUtil.init (FileUtil.everyWrite "recreate".toList) { fMaxBranchSize := 0 })) [] =
        .ok (true, opened) ∧ opened.2.fOpenmode = "recreate".toList := ⟨_, rfl, rfl⟩
  obtain ⟨opened, hopen, hmode⟩ := hopen
  have hreceived : receivedBy inputs = [⟨0, sevenFrame.parts⟩, ⟨1, sevenFrame.parts⟩] := rfl
  refine @recorded_frames_replayed { fNumSource := 2 } (fun n => (n : Int))
    (fun _ _ => Int.ofNat_le.mpr) (by decide) opts 72 (by decide) inputs ?_ (by decide) [] _ o 1
    (FileUtil.everyWrite_covered _) 0 1 _ opened hopen ?_ mems (by decide) (.inl (by decide))
  · have hlayout : Layout 1 sevenFrame.messages := by
      refine ⟨[[[0x2c00000000000000#64], [0x7000000000000000#64, 0x7000000000000000#64]]], ?_, rfl⟩
      intro frame hframe
      obtain rfl := List.mem_singleton.mp hframe
      exact ⟨[0x2c00000000000000#64], 0x7000000000000000#64, 0x7000000000000000#64,
        by simp only [List.mem_singleton, forall_eq, TFBFilePlayer.DataWord]; decide, by decide,
        by decide, rfl⟩
    rw [hreceived]
    intro a ha
    rcases List.mem_pair.mp ha with rfl | rfl
    · exact ⟨sevenFrame, rfl, List.cons_ne_nil _ _, hlayout, by decide⟩
    · exact ⟨sevenFrame, rfl, List.cons_ne_nil _ _, hlayout, by decide⟩
  · rw [hmode]
    exact fun hguarded => absurd hguarded (by decide)

end TimeFrameBuilder
end Userworks
