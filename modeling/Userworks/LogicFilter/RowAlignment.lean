import Userworks.LogicFilter.TriggerDecision
import Mathlib.Data.List.Forall2

/-!
How the block map lines up the heartbeat frames of a time frame. A block stands
for one message of its sub time frame or, in split method 1, for the data message
that a heartbeat frame does not have; so with one delimiter message for each frame
the frame number `k` of every module is at the rows `2 k` and `2 k + 1`.
-/
namespace Userworks
namespace LogicFilter

/-- The first word of the message is a heartbeat word of the module type. -/
def IsDelimiter (femType : BitVec 32) (msg : Bytes) : Prop :=
  field 8 0 msg ≠ HeartbeatFrame.MAGIC ∧ 0 ≤ isHartBeat (field 8 0 msg) femType

instance (femType : BitVec 32) (msg : Bytes) : Decidable (IsDelimiter femType msg) :=
  inferInstanceAs (Decidable (_ ∧ _))

namespace DataBlock

def isDummy (dbl : DataBlock) : Bool := dbl.msg_index = -2

def isData (dbl : DataBlock) : Bool := !dbl.is_HB && !dbl.isDummy

/-- The message a block points to. -/
def message (inParts : List Bytes) (dbl : DataBlock) : Bytes :=
  inParts.getD dbl.msg_index.toNat []

/-- The segment that stands for a data block in a row. -/
def hbfIndex (inParts : List Bytes) (imsg : Nat) (dbl : DataBlock) : HBFIndex where
  msgIndex := imsg
  timeFrameId := dbl.timeFrameId
  femType := dbl.type
  femId := dbl.femId
  data := dbl.message inParts

end DataBlock

/-- What a block stands for: a message with the labels of its module, or nothing. -/
structure BlockView where
  is_HB : Bool
  source : Option (BitVec 32 × BitVec 32 × Bytes)

def blockView (inParts : List Bytes) (dbl : DataBlock) : BlockView where
  is_HB := dbl.is_HB
  source := if dbl.isDummy then none else some (dbl.femId, dbl.type, dbl.message inParts)

/-- A heartbeat frame as split method 1 cuts it: the data words, if there are any,
and the delimiter. -/
structure DelimitedFrame where
  data : Option HeartbeatMessage
  delimiter : HeartbeatMessage

namespace DelimitedFrame

def messages (frame : DelimitedFrame) : List HeartbeatMessage :=
  frame.data.toList ++ [frame.delimiter]

def WellTyped (femType : BitVec 32) (frame : DelimitedFrame) : Prop :=
  (∀ msg ∈ frame.data, ¬ IsDelimiter femType msg.bytes) ∧
    IsDelimiter femType frame.delimiter.bytes

/-- The two blocks of a frame. -/
def views (h : SubTimeFrame.Header) (frame : DelimitedFrame) : List BlockView :=
  [⟨false, frame.data.map fun msg => (h.femId, h.femType, msg.bytes)⟩,
    ⟨true, some (h.femId, h.femType, frame.delimiter.bytes)⟩]

end DelimitedFrame

/-- The group of a sub time frame. -/
structure SubFrame.GroupIs (fSplitMethod : Int) (inParts : List Bytes) (blocks : List DataBlock)
    (stf : SubFrame) : Prop where
  labelled : (blocks.filter fun dbl => !dbl.isDummy).map
      (fun dbl => (dbl.femId, dbl.type, dbl.message inParts)) =
    stf.messages.map fun msg => (stf.header.femId, stf.header.femType, msg.bytes)
  paired : fSplitMethod = 1 → ∀ frames : List DelimitedFrame,
    stf.messages = frames.flatMap DelimitedFrame.messages →
    (∀ frame ∈ frames, frame.WellTyped stf.header.femType) →
    blocks.map (blockView inParts) = frames.flatMap (DelimitedFrame.views stf.header)

/-- The block map of a time frame. A row is one block of every group; the last group
of the map is kept when it is empty, so that a frame without sub time frames has one. -/
structure LinedUp (fSplitMethod : Int) (inParts : List Bytes) (stfs : List SubFrame)
    (block_map : List (List DataBlock)) : Prop where
  alone : stfs = [] → block_map = [[]]
  groups : stfs ≠ [] → List.Forall₂ (SubFrame.GroupIs fSplitMethod inParts) block_map stfs
  rows : ∀ i < minBlockCount block_map, ∃ row : List DataBlock,
    block_map.map (fun blocks => blocks[i]?) = row.map some ∧
      buildHBF block_map inParts i =
        (row.filter DataBlock.isData).map (DataBlock.hbfIndex inParts i)

/-- The blocks that a message adds, as they are seen. -/
def addView (fSplitMethod : Int) (h : SubTimeFrame.Header) (views : List BlockView)
    (msg : Bytes) : List BlockView :=
  if IsDelimiter h.femType msg then
    views ++
      (if fSplitMethod = 1 ∧ noDataBlock BlockView.is_HB views then [⟨false, none⟩] else []) ++
      [⟨true, some (h.femId, h.femType, msg)⟩]
  else views ++ [⟨false, some (h.femId, h.femType, msg)⟩]

theorem map_view_addBlock (fSplitMethod : Int) {inParts : List Bytes} (h : SubTimeFrame.Header)
    (i : Nat) (msg : Bytes) (blocks : List DataBlock) (hpart : inParts[i]? = some msg) :
    (addBlock fSplitMethod h.femId h.femType h.timeFrameId blocks i (field 8 0 msg)).map
        (blockView inParts) =
      addView fSplitMethod h (blocks.map (blockView inParts)) msg := by
  have hindex : (i : Int) ≠ -2 := by omega
  have hlast : noDataBlock BlockView.is_HB (blocks.map (blockView inParts)) =
      noDataBlock DataBlock.is_HB blocks := by
    rw [noDataBlock, noDataBlock, List.getLast?_map]
    cases blocks.getLast? <;> rfl
  simp only [addBlock, addView, hlast]
  by_cases hdelimiter : IsDelimiter h.femType msg
  · have hcode : ¬ (field 8 0 msg = HeartbeatFrame.MAGIC ∨
        isHartBeat (field 8 0 msg) h.femType < 0) := by
      intro hdata
      cases hdata with
      | inl heq => exact hdelimiter.1 heq
      | inr hneg => exact absurd hdelimiter.2 (Int.not_le.mpr hneg)
    rw [if_pos hdelimiter, if_neg hcode]
    by_cases hdummy : fSplitMethod = 1 ∧ noDataBlock DataBlock.is_HB blocks = true
    · simp [hdummy, blockView, DataBlock.isDummy, DataBlock.message, hindex, hpart]
    · simp [hdummy, blockView, DataBlock.isDummy, DataBlock.message, hindex, hpart]
  · have hcode : field 8 0 msg = HeartbeatFrame.MAGIC ∨
        isHartBeat (field 8 0 msg) h.femType < 0 := by
      by_cases heq : field 8 0 msg = HeartbeatFrame.MAGIC
      · exact Or.inl heq
      · exact Or.inr (Int.not_le.mp fun hle => hdelimiter ⟨heq, hle⟩)
    rw [if_neg hdelimiter, if_pos hcode]
    simp [blockView, DataBlock.isDummy, DataBlock.message, hindex, hpart]

section Views

variable (fSplitMethod : Int) (h : SubTimeFrame.Header)

/-- Each message gives one view that is not a dummy. -/
theorem filterMap_foldl_addView (messages : List HeartbeatMessage) (views : List BlockView) :
    (messages.foldl (fun views msg => addView fSplitMethod h views msg.bytes) views).filterMap
        BlockView.source =
      views.filterMap BlockView.source ++
        messages.map fun msg => (h.femId, h.femType, msg.bytes) := by
  induction messages generalizing views with
  | nil => simp
  | cons msg messages ih =>
      have hstep : (addView fSplitMethod h views msg.bytes).filterMap BlockView.source =
          views.filterMap BlockView.source ++ [(h.femId, h.femType, msg.bytes)] := by
        rw [addView]
        split
        · split <;> simp
        · simp
      rw [List.foldl_cons, ih, hstep, List.map_cons, List.append_assoc, List.singleton_append]

/-- A frame that starts behind a heartbeat, or first of all, gets two blocks and ends
in a heartbeat. -/
theorem foldl_addView_frame {frame : DelimitedFrame} (htyped : frame.WellTyped h.femType)
    {views : List BlockView} (hopen : noDataBlock BlockView.is_HB views = true) :
    frame.messages.foldl (fun views msg => addView 1 h views msg.bytes) views =
      views ++ frame.views h := by
  cases frame with
  | mk data delimiter =>
      have hdelimiter : IsDelimiter h.femType delimiter.bytes := htyped.2
      cases data with
      | none =>
          simp only [DelimitedFrame.messages, Option.toList_none, List.nil_append,
            List.foldl_cons, List.foldl_nil, addView, hdelimiter, hopen, and_self, if_true]
          exact List.append_assoc ..
      | some msg =>
          have hdata : ¬ IsDelimiter h.femType msg.bytes := htyped.1 msg rfl
          simp only [DelimitedFrame.messages, Option.toList_some, List.singleton_append,
            List.foldl_cons, List.foldl_nil, addView, hdata, hdelimiter, if_true, if_false,
            noDataBlock, List.getLast?_concat, Bool.false_eq_true, and_false, List.append_nil]
          exact List.append_assoc ..

theorem foldl_addView_frames (frames : List DelimitedFrame)
    (htyped : ∀ frame ∈ frames, frame.WellTyped h.femType) (views : List BlockView)
    (hopen : noDataBlock BlockView.is_HB views = true) :
    (frames.flatMap DelimitedFrame.messages).foldl
        (fun views msg => addView 1 h views msg.bytes) views =
      views ++ frames.flatMap (DelimitedFrame.views h) := by
  induction frames generalizing views with
  | nil => simp
  | cons frame frames ih =>
      rw [List.forall_mem_cons] at htyped
      rw [List.flatMap_cons, List.foldl_append, foldl_addView_frame h htyped.1 hopen,
        ih htyped.2, List.append_assoc, List.flatMap_cons]
      simp [noDataBlock, DelimitedFrame.views, List.getLast?_append]

end Views

/-- Every block of the map is a dummy or points behind the time frame header. -/
theorem msg_index_addBlock (fSplitMethod : Int) (h : SubTimeFrame.Header) {i : Nat} (hi : 0 < i)
    (msg : Bytes) (blocks : List DataBlock) :
    (∀ dbl ∈ addBlock fSplitMethod h.femId h.femType h.timeFrameId blocks i (field 8 0 msg),
        dbl.isDummy = false → 0 < dbl.msg_index) =
      ∀ dbl ∈ blocks, dbl.isDummy = false → 0 < dbl.msg_index := by
  have hpos : (0 : Int) < i := by omega
  apply propext
  simp only [addBlock]
  split
  · rw [List.forall_mem_append, List.forall_mem_singleton]
    exact and_iff_left fun _ => hpos
  · rw [List.forall_mem_append, List.forall_mem_append, List.forall_mem_singleton]
    refine (and_iff_left fun _ => hpos).trans (and_iff_left ?_)
    split
    · rw [List.forall_mem_singleton]
      intro hdummy
      cases hdummy
    · exact fun _ hdbl => (List.not_mem_nil hdbl).elim

theorem segment_eq {inParts : List Bytes} {imsg : Nat} {dbl : DataBlock}
    (h : dbl.isDummy = false → 0 < dbl.msg_index) :
    segment inParts imsg dbl =
      if dbl.isData then [dbl.hbfIndex inParts imsg] else [] := by
  rw [segment, DataBlock.isData]
  cases hHB : dbl.is_HB with
  | true => rfl
  | false =>
      cases hdummy : dbl.isDummy with
      | true =>
          have hminus : dbl.msg_index = -2 := of_decide_eq_true hdummy
          rw [hminus]
          rfl
      | false =>
          rw [if_pos ⟨rfl, h hdummy⟩]
          rfl

/-- Row `i` of groups that all reach it. -/
theorem buildHBF_row {block_map : List (List DataBlock)} {inParts : List Bytes} {i : Nat}
    (hreach : ∀ blocks ∈ block_map, i < blocks.length)
    (hindex : ∀ blocks ∈ block_map, ∀ dbl ∈ blocks, dbl.isDummy = false → 0 < dbl.msg_index) :
    ∃ row : List DataBlock, block_map.map (fun blocks => blocks[i]?) = row.map some ∧
      buildHBF block_map inParts i =
        (row.filter DataBlock.isData).map (DataBlock.hbfIndex inParts i) := by
  induction block_map with
  | nil => exact ⟨[], rfl, rfl⟩
  | cons blocks block_map ih =>
      rw [List.forall_mem_cons] at hreach hindex
      obtain ⟨row, hrow, hbuild⟩ := ih hreach.2 hindex.2
      have hdbl : blocks[i]? = some blocks[i] := List.getElem?_eq_getElem hreach.1
      refine ⟨blocks[i] :: row, ?_, ?_⟩
      · rw [List.map_cons, List.map_cons, hdbl, hrow]
      · have hcons : buildHBF (blocks :: block_map) inParts i =
            segment inParts i blocks[i] ++ buildHBF block_map inParts i := by
          rw [buildHBF, List.flatMap_cons, hdbl]
          rfl
        rw [hcons, hbuild, segment_eq (hindex.1 _ (List.getElem_mem _)), List.filter_cons]
        split <;> rfl

theorem filterMap_source_view (inParts : List Bytes) (blocks : List DataBlock) :
    (blocks.map (blockView inParts)).filterMap BlockView.source =
      (blocks.filter fun dbl => !dbl.isDummy).map
        fun dbl => (dbl.femId, dbl.type, dbl.message inParts) := by
  induction blocks with
  | nil => rfl
  | cons dbl blocks ih =>
      rw [List.map_cons, List.filterMap_cons, List.filter_cons]
      cases hdummy : dbl.isDummy with
      | true => simp [blockView, hdummy, ih]
      | false => simp [blockView, hdummy, ih]

theorem SubFrame.groupIs_of_views {fSplitMethod : Int} {inParts : List Bytes}
    {blocks : List DataBlock} {stf : SubFrame}
    (h : blocks.map (blockView inParts) = stf.messages.foldl
      (fun views msg => addView fSplitMethod stf.header views msg.bytes) []) :
    stf.GroupIs fSplitMethod inParts blocks where
  labelled := by
    rw [← filterMap_source_view, h, filterMap_foldl_addView]
    rfl
  paired := by
    intro hmethod frames hframes htyped
    rw [h, hframes, hmethod, foldl_addView_frames stf.header frames htyped [] rfl]
    rfl

section TimeFrames

variable (fSplitMethod : Int) (tf : TimeFrame.Header) (stfs : List SubFrame)

theorem groupsFrom_aligned :
    List.Forall₂ (fun blocks stf => SubFrame.GroupIs fSplitMethod (frameParts tf stfs) blocks stf)
      (groupsFrom fSplitMethod 1 stfs) stfs := by
  have hviews := observe_groupsFrom fSplitMethod (List.map (blockView (frameParts tf stfs)))
    (addView fSplitMethod) (fun h i msg blocks _ => map_view_addBlock fSplitMethod h i msg blocks)
    stfs (show 0 < [tf.encode].length from Nat.succ_pos 0) rfl
  rw [← List.forall₂_eq_eq_eq, List.forall₂_map_left_iff, List.forall₂_map_right_iff] at hviews
  exact hviews.imp fun _ _ => SubFrame.groupIs_of_views

theorem groupsFrom_msg_index : ∀ blocks ∈ groupsFrom fSplitMethod 1 stfs, ∀ dbl ∈ blocks,
    dbl.isDummy = false → 0 < dbl.msg_index := by
  have hknown : (groupsFrom fSplitMethod 1 stfs).map _ = _ := observe_groupsFrom fSplitMethod
    (fun blocks => ∀ dbl ∈ blocks, dbl.isDummy = false → 0 < dbl.msg_index)
    (fun _ known _ => known)
    (fun h _ msg blocks hi _ => msg_index_addBlock fSplitMethod h hi msg blocks)
    stfs (show 0 < [TimeFrame.Header.encode {}].length from Nat.succ_pos 0) rfl
  intro blocks hblocks
  have hmem := List.mem_map_of_mem (f := fun blocks : List DataBlock =>
    ∀ dbl ∈ blocks, dbl.isDummy = false → 0 < dbl.msg_index) hblocks
  rw [hknown] at hmem
  obtain ⟨stf, -, heq⟩ := List.mem_map.mp hmem
  rw [← heq, List.foldl_fixed]
  exact fun _ hdbl => (List.not_mem_nil hdbl).elim

end TimeFrames

/-- The block map of every time frame whose sub time frames all have a message. -/
theorem makeBlockMap_linedUp (fSplitMethod : Int) {tf : TimeFrame.Header}
    (hmagic : tf.magic = TimeFrame.MAGIC) (stfs : List SubFrame)
    (hfull : ∀ stf ∈ stfs, stf.messages ≠ []) :
    LinedUp fSplitMethod (frameParts tf stfs) stfs
      (makeBlockMap fSplitMethod (frameParts tf stfs)) := by
  by_cases hne : stfs = []
  · subst hne
    rw [makeBlockMap_frameParts fSplitMethod hmagic]
    exact ⟨fun _ => rfl, fun h => absurd rfl h, fun i hi => absurd hi (Nat.not_lt_zero i)⟩
  · rw [makeBlockMap_of_nonempty fSplitMethod hmagic hne hfull]
    have hsome : groupsFrom fSplitMethod 1 stfs ≠ [] := by
      cases stfs with
      | nil => exact absurd rfl hne
      | cons stf stfs => simp [groupsFrom]
    refine ⟨fun h => absurd h hne, fun _ => groupsFrom_aligned fSplitMethod tf stfs, fun i hi => ?_⟩
    apply buildHBF_row
    · intro blocks hblocks
      exact Nat.lt_of_lt_of_le hi
        ((minBlockCount_isLeast hsome).2 (List.mem_map_of_mem hblocks))
    · exact groupsFrom_msg_index fSplitMethod stfs

/-- Two modules, split method 1. -/
theorem makeBlockMap_linedUp_two_modules :
    LinedUp 1 (frameParts {} [oneHeartbeat, oneHeartbeat]) [oneHeartbeat, oneHeartbeat]
      (makeBlockMap 1 (frameParts {} [oneHeartbeat, oneHeartbeat])) :=
  makeBlockMap_linedUp 1 rfl _ fun stf hstf => by
    have heq : stf = oneHeartbeat := by simpa using hstf
    subst heq
    exact List.cons_ne_nil _ _

/-- A time frame without sub time frames has a group all the same. -/
theorem group_of_no_subFrame :
    (∀ stf ∈ ([] : List SubFrame), stf.messages ≠ []) ∧
      (makeBlockMap 1 (frameParts {} [])).length ≠ ([] : List SubFrame).length := by
  refine ⟨fun _ hstf => (List.not_mem_nil hstf).elim, ?_⟩
  rw [makeBlockMap_frameParts 1 rfl]
  decide

end LogicFilter
end Userworks
