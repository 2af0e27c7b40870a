import Userworks.Exam6.TFBFileReplay

/-!
The three split methods and the two generations of data words.

Words that are no delimiter are only collected. A heartbeat frame of the layout
that belongs to a method is cut into its messages, and nothing is left over for
the words behind it. A message of the current generation is cut one word early:
its second delimiter starts the next message, or is lost behind the last one.
-/
namespace Userworks
namespace TFBFilePlayer

open AmQStrTdc

/-- A data word of the first generation. -/
def DataWord (w : Word) : Prop := head w ≠ Heartbeat ∧ head w ≠ SpillEnd

/-- The messages of one heartbeat frame in the layout of a split method. -/
def HeartbeatFrame (fSplitMethod : Int) (messages : List (List Word)) : Prop :=
  if fSplitMethod = 0 then
    ∃ data d, (∀ w ∈ data, DataWord w) ∧ head d = Heartbeat ∧ messages = [data ++ [d]]
  else if fSplitMethod = 1 then
    ∃ data d e, (∀ w ∈ data, DataWord w) ∧ head d = Heartbeat ∧ head e = Heartbeat ∧
      messages = (if data = [] then [] else [data]) ++ [[d, e]]
  else
    ∃ data d e, (∀ w ∈ data, DataWord w) ∧ head d = Heartbeat ∧ head e = Heartbeat ∧
      messages = [data ++ [d, e]]

/-- The messages of a sub time frame are those of successive heartbeat frames. -/
def Layout (fSplitMethod : Int) (messages : List (List Word)) : Prop :=
  ∃ frames : List (List (List Word)),
    (∀ frame ∈ frames, HeartbeatFrame fSplitMethod frame) ∧ messages = frames.flatten

section Splitting

variable {fSplitMethod : Int} {past : Bytes} {open_ ws : List Word} {msgs : List Bytes}

theorem splitWords_cons_data {w : Word} (h : DataWord w) :
    splitWords fSplitMethod past open_ (w :: ws) =
      splitWords fSplitMethod past (open_ ++ [w]) ws := by
  rw [splitWords.eq_def]
  dsimp only
  rw [if_neg]
  rintro (hspill | hheart)
  · exact h.2 hspill
  · exact h.1 hheart

theorem splitWords_data {data : List Word} (h : ∀ w ∈ data, DataWord w) :
    splitWords fSplitMethod past open_ (data ++ ws) =
      splitWords fSplitMethod past (open_ ++ data) ws := by
  induction data generalizing open_ with
  | nil => rw [List.nil_append, List.append_nil]
  | cons w data ih =>
      rw [List.cons_append, splitWords_cons_data (h w List.mem_cons_self),
        ih fun v hv => h v (List.mem_cons_of_mem _ hv), List.append_assoc, List.singleton_append]

/-- Method 0 closes a message at every delimiter. -/
theorem splitWords_zero_delimiter {d : Word} (hd : head d = Heartbeat)
    (hrest : splitWords 0 past [] ws = .ok msgs) :
    splitWords 0 past open_ (d :: ws) = .ok (putWords (open_ ++ [d]) :: msgs) := by
  rw [splitWords.eq_def]
  dsimp only
  rw [if_pos (.inr hd), if_pos rfl, hrest]
  rfl

/-- In method 1 a delimiter behind data closes the data and opens a message. -/
theorem splitWords_one_close {d : Word} (hd : head d = Heartbeat) (hne : open_ ≠ [])
    (hdata : ∀ w ∈ open_, DataWord w) (hrest : splitWords 1 past [d] ws = .ok msgs) :
    splitWords 1 past open_ (d :: ws) = .ok (putWords open_ :: msgs) := by
  have hlen : 0 < open_.length := List.length_pos_iff.mpr hne
  have hlast : head (open_.getLastD 0) ≠ Heartbeat := by
    rw [List.getLastD_eq_getLast?, List.getLast?_eq_some_getLast hne]
    exact (hdata _ (List.getLast_mem hne)).1
  have hclose : open_.length > 1 ∨ open_.length = 1 ∧ head (open_.getLastD 0) ≠ Heartbeat := by
    cases Nat.lt_or_eq_of_le hlen with
    | inl hlong =>
        exact .inl hlong
    | inr hone =>
        exact .inr ⟨hone.symm, hlast⟩
  rw [splitWords.eq_def]
  dsimp only
  rw [if_pos (.inr hd), if_neg (by decide), if_pos rfl, if_neg (by omega), if_pos hclose, hrest]
  rfl

/-- In method 1 a delimiter is kept open until the next one. -/
theorem splitWords_one_pair {d e : Word} (hd : head d = Heartbeat) (he : head e = Heartbeat)
    (hrest : splitWords 1 past [] ws = .ok msgs) :
    splitWords 1 past [d] (e :: ws) = .ok (putWords [d, e] :: msgs) := by
  have hopen : ¬ ([d].length > 1 ∨ [d].length = 1 ∧ head ([d].getLastD 0) ≠ Heartbeat) := by
    simp [hd]
  rw [splitWords.eq_def]
  dsimp only
  rw [if_pos (.inr he), if_neg (by decide), if_pos rfl, if_neg (by simp), if_neg hopen, hrest]
  rfl

theorem splitWords_one_open {d : Word} (hd : head d = Heartbeat) :
    splitWords 1 past [] (d :: ws) = splitWords 1 past [d] ws := by
  rw [splitWords.eq_def]
  dsimp only
  rw [if_pos (.inr hd), if_neg (by decide), if_pos rfl, if_pos List.length_nil]
  rfl

/-- The other methods take the next word along if its head is that of a delimiter. -/
theorem splitWords_pair (h0 : fSplitMethod ≠ 0) (h1 : fSplitMethod ≠ 1) {d e : Word}
    (hd : head d = Heartbeat) (he : head e = Heartbeat)
    (hrest : splitWords fSplitMethod past [] ws = .ok msgs) :
    splitWords fSplitMethod past open_ (d :: e :: ws) =
      .ok (putWords (open_ ++ [d, e]) :: msgs) := by
  rw [splitWords, if_pos (.inr hd), if_neg h0, if_neg h1]
  simp only [he, if_true, hrest]
  rfl

theorem splitWords_single (h0 : fSplitMethod ≠ 0) (h1 : fSplitMethod ≠ 1) {d e : Word}
    (hd : head d = Heartbeat) (he : head e ≠ Heartbeat)
    (hrest : splitWords fSplitMethod past [] (e :: ws) = .ok msgs) :
    splitWords fSplitMethod past open_ (d :: e :: ws) =
      .ok (putWords (open_ ++ [d]) :: msgs) := by
  rw [splitWords, if_pos (.inr hd), if_neg h0, if_neg h1]
  simp only [he, if_false, hrest]
  rfl

/-- A heartbeat frame is cut into its messages. -/
theorem HeartbeatFrame.splitWords {frame : List (List Word)}
    (h : HeartbeatFrame fSplitMethod frame)
    (hrest : splitWords fSplitMethod past [] ws = .ok msgs) :
    splitWords fSplitMethod past [] (frame.flatten ++ ws) =
      .ok (frame.map putWords ++ msgs) := by
  rw [HeartbeatFrame] at h
  split at h
  next hmethod =>
    subst hmethod
    obtain ⟨data, d, hdata, hd, rfl⟩ := h
    simp only [List.flatten_singleton, List.append_assoc, List.singleton_append, List.map_cons,
      List.map_nil]
    rw [splitWords_data hdata]
    exact splitWords_zero_delimiter hd hrest
  next h0 =>
    split at h
    next hmethod =>
      subst hmethod
      obtain ⟨data, d, e, hdata, hd, he, rfl⟩ := h
      have hpair := splitWords_one_pair hd he hrest
      split
      next hnil =>
        simp only [List.nil_append, List.flatten_singleton, List.cons_append, List.map_cons,
          List.map_nil]
        rw [splitWords_one_open hd]
        exact hpair
      next hne =>
        simp only [List.flatten_cons, List.flatten_nil, List.append_nil, List.append_assoc,
          List.cons_append, List.nil_append, List.map_cons, List.map_nil]
        rw [splitWords_data hdata]
        exact splitWords_one_close hd hne hdata hpair
    next h1 =>
      obtain ⟨data, d, e, hdata, hd, he, rfl⟩ := h
      simp only [List.flatten_singleton, List.append_assoc, List.cons_append, List.nil_append,
        List.map_cons, List.map_nil]
      rw [splitWords_data hdata]
      exact splitWords_pair h0 h1 hd he hrest

/-- The words of a layout are cut into its messages. -/
theorem Layout.splitWords {messages : List (List Word)} (h : Layout fSplitMethod messages)
    (past : Bytes) :
    splitWords fSplitMethod past [] messages.flatten = .ok (messages.map putWords) := by
  obtain ⟨frames, hframes, rfl⟩ := h
  induction frames with
  | nil => rfl
  | cons frame frames ih =>
      rw [List.flatten_cons, List.flatten_append, List.map_append]
      exact (hframes frame List.mem_cons_self).splitWords
        (ih fun other hother => hframes other (List.mem_cons_of_mem _ hother))

end Splitting

/-- A file of time frames in the layout of the split method is played back as the
messages it was written from, and then the player stops. -/
theorem replay_layouts {opts : Options} {frames : List Frame}
    (hlayout : ∀ f ∈ frames, ∀ sub ∈ f.subs, Layout opts.split sub.messages)
    {mems : List Uninitialised} (hmems : frames.length < mems.length)
    (hroom : opts.maxIterations ≤ 0 ∨ frames.length ≤ opts.maxIterations) :
    ∃ s, replay opts mems (frames.flatMap Frame.bytes) = .ok (s, false) ∧
      s.sent = frames.map Frame.parts :=
  replay_frames hmems hroom fun f hf sub hsub => (hlayout f hf sub hsub).splitWords

/-- One source with a data word and a pair of delimiters in messages of their own. -/
def separateDelimiters : Frame where
  header := { length := 96, numSource := 1 }
  subs := [{
    header := { length := 72 }
    messages := [[0x2c00000000000000#64], [0x7000000000000000#64, 0x7000000000000000#64]]
    length_eq := by decide }]
  magic_eq := rfl
  length_eq := by decide
  numSource_eq := by decide
  subs_ne_nil := by decide

theorem replay_layouts_separateDelimiters :
    ∃ s, replay { split := 1 } [⟨0, {}⟩, ⟨0, {}⟩] ([separateDelimiters].flatMap Frame.bytes) =
        .ok (s, false) ∧
      s.sent = [separateDelimiters].map Frame.parts := by
  refine replay_layouts ?_ (by decide) (.inl (by decide))
  intro f hf sub hsub
  obtain rfl := List.mem_singleton.mp hf
  obtain rfl := List.mem_singleton.mp hsub
  refine ⟨[[[0x2c00000000000000#64], [0x7000000000000000#64, 0x7000000000000000#64]]], ?_, rfl⟩
  intro frame hframe
  obtain rfl := List.mem_singleton.mp hframe
  exact ⟨[0x2c00000000000000#64], 0x7000000000000000#64, 0x7000000000000000#64,
    by simp only [List.mem_singleton, forall_eq, DataWord]; decide, by decide, by decide, rfl⟩

/-- A message of the current generation. -/
def CurrentMessage (message : List Word) : Prop :=
  ∃ data d e, (∀ w ∈ data, DataWord w ∧ head w ≠ Heartbeat2nd) ∧ head d = Heartbeat ∧
    head e = Heartbeat2nd ∧ message = data ++ [d, e]

/-- The messages with their last words moved to the next one. -/
def shifted : List Word → List (List Word) → List (List Word)
  | _, [] => []
  | open_, message :: messages =>
      (open_ ++ message.dropLast) :: shifted message.getLast?.toList messages

@[simp] theorem length_shifted (open_ : List Word) (messages : List (List Word)) :
    (shifted open_ messages).length = messages.length := by
  induction messages generalizing open_ with
  | nil => rfl
  | cons message messages ih => rw [shifted, List.length_cons, ih, List.length_cons]

/-- What the player makes of the messages of the current generation. -/
theorem splitWords_current {fSplitMethod : Int} (h0 : fSplitMethod ≠ 0) (h1 : fSplitMethod ≠ 1)
    {messages : List (List Word)} (h : ∀ message ∈ messages, CurrentMessage message)
    (past : Bytes) (open_ : List Word) :
    splitWords fSplitMethod past open_ messages.flatten =
      .ok ((shifted open_ messages).map putWords) := by
  induction messages generalizing open_ with
  | nil => rfl
  | cons message messages ih =>
      obtain ⟨data, d, e, hdata, hd, he, rfl⟩ := h message List.mem_cons_self
      have hsecond : DataWord e := by
        rw [DataWord, he]
        decide
      have hrest := ih (fun other hother => h other (List.mem_cons_of_mem _ hother)) [e]
      rw [← List.nil_append [e], ← splitWords_cons_data hsecond] at hrest
      have hlast : (data ++ [d, e]).getLast?.toList = [e] := by simp
      have hinit : (data ++ [d, e]).dropLast = data ++ [d] := by
        rw [List.dropLast_append_of_ne_nil (by simp)]
        rfl
      rw [List.flatten_cons, List.append_assoc, splitWords_data fun w hw => (hdata w hw).1,
        shifted, hlast, hinit, List.map_cons, ← List.append_assoc]
      exact splitWords_single h0 h1 hd (by rw [he]; decide) hrest

/-- No message comes out as it was. -/
theorem shifted_eq_iff {messages : List (List Word)}
    (h : ∀ message ∈ messages, CurrentMessage message) :
    (shifted [] messages).map putWords = messages.map putWords ↔ messages = [] := by
  cases messages with
  | nil => exact iff_of_true rfl rfl
  | cons message messages =>
      refine iff_of_false ?_ (List.cons_ne_nil _ _)
      intro heq
      have hhead := congrArg List.length (List.cons.inj heq).1
      obtain ⟨data, d, e, -, -, -, rfl⟩ := h message List.mem_cons_self
      simp only [List.nil_append, length_putWords, List.length_dropLast, List.length_append,
        List.length_cons, List.length_nil] at hhead
      omega

/-- Concatenations of pieces of equal lengths are equal piece by piece. -/
theorem flatMap_eq_flatMap_iff {α β : Type} {f g : α → List β} {xs : List α}
    (h : ∀ x ∈ xs, (f x).length = (g x).length) :
    xs.flatMap f = xs.flatMap g ↔ ∀ x ∈ xs, f x = g x := by
  induction xs with
  | nil => simp
  | cons x xs ih =>
      have hx := h x List.mem_cons_self
      have hxs := ih fun y hy => h y (List.mem_cons_of_mem _ hy)
      rw [List.flatMap_cons, List.flatMap_cons, List.forall_mem_cons, ← hxs]
      exact ⟨fun heq => List.append_inj heq hx, fun heq => by rw [heq.1, heq.2]⟩

/-- What the player sends behind a header of the current generation. -/
def shiftedBodies (sub : SubFrame) : List Bytes := (shifted [] sub.messages).map putWords

theorem Frame.partsWith_shiftedBodies_iff {f : Frame}
    (h : ∀ sub ∈ f.subs, ∀ message ∈ sub.messages, CurrentMessage message) :
    f.partsWith shiftedBodies = f.parts ↔ ∀ sub ∈ f.subs, sub.messages = [] := by
  have hlen : ∀ sub ∈ f.subs, (sub.header.encode :: shiftedBodies sub).length =
      (sub.header.encode :: sub.messages.map putWords).length := by
    intro sub _
    simp only [shiftedBodies, List.length_cons, List.length_map, length_shifted]
  rw [parts, partsWith, partsWith, List.cons_inj_right, flatMap_eq_flatMap_iff hlen]
  refine forall₂_congr fun sub hsub => ?_
  rw [List.cons_inj_right]
  exact shifted_eq_iff (h sub hsub)

/-- A file of time frames of the current generation is played in the default split
method, and comes back as it was exactly if it has no heartbeat messages. -/
theorem replay_current_iff {frames : List Frame}
    (hcurrent : ∀ f ∈ frames, ∀ sub ∈ f.subs, ∀ message ∈ sub.messages, CurrentMessage message)
    {maxIterations : Int} {mems : List Uninitialised} (hmems : frames.length < mems.length)
    (hroom : maxIterations ≤ 0 ∨ frames.length ≤ maxIterations) :
    ∃ s, replay { maxIterations } mems (frames.flatMap Frame.bytes) = .ok (s, false) ∧
      (s.sent = frames.map Frame.parts ↔
        ∀ f ∈ frames, ∀ sub ∈ f.subs, sub.messages = []) := by
  obtain ⟨s, hs, hsent⟩ := @replay_frames shiftedBodies { maxIterations } frames mems hmems hroom
    fun f hf sub hsub past =>
      splitWords_current (show (2 : Int) ≠ 0 by decide) (show (2 : Int) ≠ 1 by decide)
        (hcurrent f hf sub hsub) past []
  refine ⟨s, hs, ?_⟩
  rw [hsent, List.map_inj_left]
  exact forall₂_congr fun f hf => f.partsWith_shiftedBodies_iff (hcurrent f hf)

/-- One source with one heartbeat message of two delimiters. -/
def oneHeartbeat : Frame where
  header := { length := 88, numSource := 1 }
  subs := [{
    header := { length := 64 }
    messages := [[0x7000000000000000#64, 0x7800000000000000#64]]
    length_eq := by decide }]
  magic_eq := rfl
  length_eq := by decide
  numSource_eq := by decide
  subs_ne_nil := by decide

theorem oneHeartbeat_current :
    ∀ sub ∈ oneHeartbeat.subs, ∀ message ∈ sub.messages, CurrentMessage message := by
  intro sub hsub message hmessage
  obtain rfl := List.mem_singleton.mp hsub
  obtain rfl := List.mem_singleton.mp hmessage
  exact ⟨[], 0x7000000000000000#64, 0x7800000000000000#64, by simp, by decide, by decide, rfl⟩

theorem replay_current_iff_oneHeartbeat :
    ∃ s, replay { maxIterations := 0 } [⟨0, {}⟩, ⟨0, {}⟩] ([oneHeartbeat].flatMap Frame.bytes) =
        .ok (s, false) ∧
      (s.sent = [oneHeartbeat].map Frame.parts ↔
        ∀ f ∈ [oneHeartbeat], ∀ sub ∈ f.subs, sub.messages = []) := by
  refine replay_current_iff ?_ (by decide) (.inl (by decide))
  intro f hf
  obtain rfl := List.mem_singleton.mp hf
  exact oneHeartbeat_current

/-- The heartbeat message comes back without its second delimiter. -/
theorem second_delimiter_lost :
    (∀ sub ∈ oneHeartbeat.subs, ∀ message ∈ sub.messages, CurrentMessage message) ∧
      ¬ ∃ s, replay {} [⟨0, {}⟩, ⟨0, {}⟩] oneHeartbeat.bytes = .ok (s, false) ∧
        s.sent = [oneHeartbeat.parts] := by
  refine ⟨oneHeartbeat_current, ?_⟩
  rintro ⟨s, hs, hsent⟩
  obtain ⟨s', hs', hsent'⟩ := @replay_frames shiftedBodies {} [oneHeartbeat]
    [⟨0, {}⟩, ⟨0, {}⟩] (by decide) (.inl (by decide))
    (fun f hf sub hsub past => splitWords_current (by decide) (by decide)
      (by obtain rfl := List.mem_singleton.mp hf; exact oneHeartbeat_current sub hsub) past [])
  rw [List.flatMap_cons, List.flatMap_nil, List.append_nil, hs, Except.ok.injEq,
    Prod.mk.injEq] at hs'
  rw [← hs'.1, hsent] at hsent'
  have hparts := (List.cons.inj hsent').1
  have hempty := (Frame.partsWith_shiftedBodies_iff oneHeartbeat_current).mp hparts.symm _
    List.mem_cons_self
  cases hempty

end TFBFilePlayer
end Userworks
