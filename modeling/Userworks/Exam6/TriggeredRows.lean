import Userworks.Exam6.HeartbeatRemoval
import Userworks.Exam6.TriggerEngines

/-!
The rows of a time frame in which the formula turns true, in the filter of exam6.

A row is searched by the trigger engine, on the data messages that stand in it. So
its hits are the times at which the formula turns true over the signals of those
messages, whatever rows and frames were searched before. Which rows are searched
is settled by the sub time frame with the fewest of them.
-/
namespace Userworks
namespace Exam6

open LogicFilter (HeartbeatMessage SubFrame frameParts noDataBlock)

/-- The module type whose format a word is read in: this copy of the engine reads words
of type TDC64L_V3 as those of type TDC64L. -/
def formatOf (type : BitVec 32) : BitVec 32 :=
  if type = SubTimeFrame.TDC64L_V3 then SubTimeFrame.TDC64L else type

def asRead (seg : HBFIndex) : HBFIndex := { seg with femType := formatOf seg.femType }

theorem tdcHit_eq_formatOf (type : BitVec 32) (w : Word) :
    tdcHit type w = LogicFilter.tdcHit (formatOf type) w := by
  by_cases htype : type = SubTimeFrame.TDC64L_V3
  · subst htype
    rfl
  · rw [Trigger.tdcHit_eq_of_ne htype, formatOf, if_neg htype]

theorem markPattern_asRead (size : BitVec 32) (markLen : Int) (es : List Entry)
    (hbf : List HBFIndex) (time : Nat) :
    Trigger.markPattern tdcHit size markLen es hbf time =
      Trigger.markPattern LogicFilter.tdcHit size markLen es (hbf.map asRead) time := by
  apply patternOf_congr
  intro i
  refine exists_congr fun e => and_congr_right fun _ => ?_
  simp only [List.mem_map, exists_exists_and_eq_and, asRead, tdcHit_eq_formatOf]

/-- Only the segments count, not how often and in which order they come. -/
theorem signalPattern_congr {hbf hbf' : List HBFIndex} (h : ∀ seg, seg ∈ hbf ↔ seg ∈ hbf')
    (N : Nat) (markLen : Int) (es : List Entry) :
    signalPattern N markLen es hbf = signalPattern N markLen es hbf' := by
  funext time
  apply patternOf_congr
  intro i
  simp only [SignalAt, h]

/-- What the filter is set to look for: signals, and a formula over the first `used` of
them. -/
structure Selection where
  signals : List Entry
  used : Nat
  value : BitVec 32 → Bool

namespace Selection

/-- A signal above those of the formula makes it false. -/
def holds (s : Selection) (v : BitVec 32) : Bool := s.value v && decide (v.toNat < 2 ^ s.used)

/-- The times at which the formula turns true. -/
noncomputable def times (s : Selection) (hbf : List HBFIndex) : List Nat :=
  risingEdges (fun time => s.holds (signalPattern 131072 10 s.signals (hbf.map asRead) time)) 131071

theorem times_congr (s : Selection) {hbf hbf' : List HBFIndex}
    (h : ∀ seg, seg ∈ hbf ↔ seg ∈ hbf') : s.times hbf = s.times hbf' := by
  have hmap : ∀ seg, seg ∈ hbf.map asRead ↔ seg ∈ hbf'.map asRead := by
    simp only [List.mem_map, h, implies_true]
  rw [times, signalPattern_congr hmap, ← times]

end Selection

/-- An engine that looks for a selection, whatever its time region holds. -/
structure LooksFor (s : Selection) (t : Trigger TriggerMap) : Prop where
  ready : t.Ready s.signals
  size : t.fTimeRegionSize = BitVec.ofNat 32 131072
  markLen : t.fMarkLen = 10
  table : ∀ v, t.fTMap.lookUp v = s.holds v

section Engine

variable {s : Selection} {t : Trigger TriggerMap}

theorem LooksFor.hits (h : LooksFor s t) (hbf : List HBFIndex) :
    (t.exec triggerCopy hbf).fHits.map BitVec.toNat = s.times hbf := by
  have hsize : t.fTimeRegionSize.toNat = 131072 := by rw [h.size]; rfl
  rw [h.ready.exec_hits_toNat, hsize, Selection.times]
  apply risingEdges_congr
  intro time htime
  have hpattern := @markPattern_eq_signalPattern 131072 10 (by decide) (by decide) (by decide)
    s.signals (hbf.map asRead) time (by omega)
  rw [← hpattern, ← markPattern_asRead, ← h.table, h.markLen, h.size]
  rfl

theorem LooksFor.exec (h : LooksFor s t) (hbf : List HBFIndex) :
    LooksFor s (t.exec triggerCopy hbf) := by
  obtain ⟨hready, hconfig⟩ := h.ready.exec triggerCopy hbf
  refine ⟨hready, hconfig.size.trans h.size, hconfig.markLen.trans h.markLen, fun v => ?_⟩
  rw [hconfig.table, h.table]

end Engine

namespace FltTrig

/-! ### A row is one run of the engine -/

/-- The segment of a message. Its number and its time frame are not looked at. -/
def segment (h : SubTimeFrame.Header) (msg : HeartbeatMessage) : HBFIndex where
  msgIndex := 0
  timeFrameId := 0
  femType := h.femType
  femId := h.femId
  data := msg.bytes

/-- The data messages of the sub time frames in a row. -/
def rowSegments (fSplitMethod : Int) (stfs : List SubFrame) (i : Nat) : List HBFIndex :=
  stfs.flatMap fun stf =>
    ((stf.messages.zip (rows fSplitMethod stf)).filter fun part =>
      part.2 = i ∧ isHeartbeat stf.header.femType part.1 = false).map fun part =>
        segment stf.header part.1

def segmentOf (inParts : List Bytes) (dbl : DataBlock) : HBFIndex where
  msgIndex := 0
  timeFrameId := 0
  femType := dbl.type
  femId := dbl.femId
  data := inParts.getD dbl.msg_index.toNat []

/-- The segments that a row of the block map marks. -/
def blockSegments (inParts : List Bytes) (dbls : List DataBlock) : List HBFIndex :=
  (dbls.filter fun dbl => dbl.is_HB = false ∧ 0 ≤ dbl.msg_index).map (segmentOf inParts)

theorem blockSegments_cons (inParts : List Bytes) (dbl : DataBlock) (dbls : List DataBlock) :
    blockSegments inParts (dbl :: dbls) =
      (if dbl.is_HB = false ∧ 0 ≤ dbl.msg_index then [segmentOf inParts dbl] else []) ++
        blockSegments inParts dbls := by
  rw [blockSegments, List.filter_cons]
  simp only [decide_eq_true_eq]
  split <;> rfl

theorem scanRow_eq_exec (block_map : List (List DataBlock)) (inParts : List Bytes)
    (t : Trigger TriggerMap) (i : Nat) :
    scanRow block_map inParts t i =
      t.exec triggerCopy (blockSegments inParts (row block_map i)) := by
  have hmarks : ∀ (dbls : List DataBlock) (t : Trigger TriggerMap),
      dbls.foldl (markBlock inParts) t = (blockSegments inParts dbls).foldl
        (fun t seg => t.mark triggerCopy seg.data seg.femId seg.femType) t := by
    intro dbls
    induction dbls with
    | nil => exact fun _ => rfl
    | cons dbl dbls ih =>
        intro t
        rw [List.foldl_cons, ih, markBlock, blockSegments_cons, List.foldl_append]
        split <;> rfl
  rw [scanRow, hmarks, Trigger.exec]

@[simp] theorem blockAt_femId (h : SubTimeFrame.Header) (i : Nat) (msg : HeartbeatMessage) :
    (blockAt h i msg).femId = h.femId := by
  rw [blockAt, messageBlock]
  split <;> rfl

theorem mem_rowSegments_iff {fSplitMethod : Int} {stfs : List SubFrame} {i : Nat}
    {seg : HBFIndex} :
    seg ∈ rowSegments fSplitMethod stfs i ↔ ∃ stf ∈ stfs, ∃ (k : Nat) (msg : HeartbeatMessage),
      stf.messages[k]? = some msg ∧ (rows fSplitMethod stf)[k]? = some i ∧
        isHeartbeat stf.header.femType msg = false ∧ seg = segment stf.header msg := by
  rw [rowSegments, List.mem_flatMap]
  refine exists_congr fun stf => and_congr_right fun _ => ?_
  rw [List.mem_map]
  constructor
  · rintro ⟨⟨msg, j⟩, hpart, rfl⟩
    obtain ⟨hpart, hcondition⟩ := List.mem_filter.mp hpart
    obtain ⟨hrow, hdata⟩ := of_decide_eq_true hcondition
    obtain ⟨k, hk⟩ := List.mem_iff_getElem?.mp hpart
    obtain ⟨hmsg, hj⟩ := List.getElem?_zip_eq_some.mp hk
    exact ⟨k, msg, hmsg, hj.trans (congrArg some hrow), hdata, rfl⟩
  · rintro ⟨k, msg, hmsg, hrow, hdata, rfl⟩
    refine ⟨(msg, i), List.mem_filter.mpr ⟨?_, decide_eq_true ⟨rfl, hdata⟩⟩, rfl⟩
    exact List.mem_iff_getElem?.mpr ⟨k, List.getElem?_zip_eq_some.mpr ⟨hmsg, hrow⟩⟩

/-- The segments of a row of the block map are the data messages in that row. -/
theorem mem_blockSegments_iff (fSplitMethod : Int) {tf : TimeFrame.Header}
    (hmagic : tf.magic = TimeFrame.MAGIC) (stfs : List SubFrame) (i : Nat) (seg : HBFIndex) :
    seg ∈ blockSegments (frameParts tf stfs)
        (row (makeBlockMap fSplitMethod (frameParts tf stfs)) i) ↔
      seg ∈ rowSegments fSplitMethod stfs i := by
  have hsegment : ∀ p ∈ subFrames stfs, ∀ k msg, p.2.messages[k]? = some msg →
      segmentOf (frameParts tf stfs) (blockAt p.2.header (p.1 + k) msg) =
        segment p.2.header msg := by
    intro p hp k msg hmsg
    obtain ⟨hk, rfl⟩ := List.getElem?_eq_some_iff.mp hmsg
    rw [segmentOf, blockAt_msg_index, blockAt_type, blockAt_femId, Int.toNat_natCast,
      List.getD_eq_getElem?_getD, getElem?_frameParts hp hk]
    rfl
  rw [mem_rowSegments_iff, blockSegments, List.mem_map]
  constructor
  · rintro ⟨dbl, hdbl, rfl⟩
    obtain ⟨hmem, hcondition⟩ := List.mem_filter.mp hdbl
    obtain ⟨hdata, hindex⟩ := of_decide_eq_true hcondition
    obtain ⟨p, hp, hblock⟩ := (mem_row_iff fSplitMethod hmagic stfs i dbl).mp hmem
    obtain ⟨k, msg, hmsg, hrow, rfl⟩ :=
      (getElem?_stfBlocks_iff fSplitMethod p i dbl).mp ⟨hblock, by omega⟩
    rw [blockAt_is_HB] at hdata
    exact ⟨p.2, mem_of_mem_subFrames hp, k, msg, hmsg, hrow, hdata, hsegment p hp k msg hmsg⟩
  · rintro ⟨stf, hstf, k, msg, hmsg, hrow, hdata, rfl⟩
    obtain ⟨base, hp⟩ := exists_mem_subFrames hstf
    have hblock := (getElem?_stfBlocks_iff fSplitMethod (base, stf) i _).mpr
      ⟨k, msg, hmsg, hrow, rfl⟩
    refine ⟨_, List.mem_filter.mpr ⟨?_, decide_eq_true ⟨?_, ?_⟩⟩, hsegment _ hp k msg hmsg⟩
    · exact (mem_row_iff fSplitMethod hmagic stfs i _).mpr ⟨_, hp, hblock.1⟩
    · rw [blockAt_is_HB]
      exact hdata
    · rw [blockAt_msg_index]
      omega

section Rows

variable {s : Selection} {f : FltTrig} {tf : TimeFrame.Header}
  (hmagic : tf.magic = TimeFrame.MAGIC) (stfs : List SubFrame)

theorem looksFor_trigBefore (h : LooksFor s f.fTrig) (block_map : List (List DataBlock))
    (inParts : List Bytes) (i : Nat) : LooksFor s (f.trigBefore block_map inParts i) := by
  induction i with
  | zero => exact h
  | succ i ih =>
      rw [trigBefore_succ, scanRow_eq_exec]
      exact ih.exec _

include hmagic in
/-- A row has as many hits as there are times at which the formula turns true in it. -/
theorem nhits_eq (h : LooksFor s f.fTrig) (i : Nat) :
    f.nhits (makeBlockMap f.fSplitMethod (frameParts tf stfs)) (frameParts tf stfs) i =
      (s.times (rowSegments f.fSplitMethod stfs i)).length := by
  have hbefore := looksFor_trigBefore h (makeBlockMap f.fSplitMethod (frameParts tf stfs))
    (frameParts tf stfs) i
  rw [nhits, scanRow_eq_exec,
    ← s.times_congr (mem_blockSegments_iff f.fSplitMethod hmagic stfs i), ← hbefore.hits,
    List.length_map]

end Rows

/-! ### The rows that are searched -/

theorem lt_minBlockCount_iff {block_map : List (List DataBlock)} (h : block_map ≠ []) (i : Nat) :
    i < minBlockCount block_map ↔ ∀ blocks ∈ block_map, i < blocks.length := by
  have hfold : ∀ (blk : List (List DataBlock)) (start : Nat),
      i < blk.foldl (fun bsize_min blk =>
        if blk.length < bsize_min then blk.length else bsize_min) start ↔
      i < start ∧ ∀ blocks ∈ blk, i < blocks.length := by
    intro blk
    induction blk with
    | nil => simp
    | cons first rest ih =>
        intro start
        rw [List.foldl_cons, ih, List.forall_mem_cons, ← and_assoc]
        refine and_congr_left fun _ => ?_
        split <;> omega
  obtain ⟨first, rest, rfl⟩ := List.exists_cons_of_ne_nil h
  rw [minBlockCount, hfold, List.headD_cons]
  exact and_iff_right_of_imp fun hall => hall first List.mem_cons_self

/-- The number of rows that a sub time frame takes. -/
def rowCount (fSplitMethod : Int) (stf : SubFrame) : Nat :=
  (rows fSplitMethod stf).getLast?.elim 0 (· + 1)

theorem length_addMessages (fSplitMethod : Int) (h : SubTimeFrame.Header)
    (blocks : List DataBlock) (base : Nat) (messages : List HeartbeatMessage) :
    (addMessages fSplitMethod h blocks base messages).length =
      (rowsFrom fSplitMethod h.femType blocks.length (noDataBlock DataBlock.is_HB blocks)
        messages).getLast?.elim blocks.length (· + 1) := by
  induction messages generalizing blocks base with
  | nil => rfl
  | cons msg messages ih =>
      have hlast : ∀ (j : Nat) (js : List Nat),
          (j :: js).getLast?.elim blocks.length (· + 1) = js.getLast?.elim (j + 1) (· + 1) := by
        intro j js
        rw [List.getLast?_cons]
        cases js.getLast? <;> rfl
      rw [addMessages, List.zipIdx_cons, List.foldl_cons, ← addMessages, ih, rowsFrom, addBlock_eq,
        hlast]
      split
      · rw [List.append_cons, noDataBlock_concat, List.length_append, List.length_append,
          blockAt_is_HB]
        rfl
      · rw [noDataBlock_concat, List.length_append, blockAt_is_HB]
        rfl

theorem length_stfBlocks (fSplitMethod : Int) (p : Nat × SubFrame) :
    (stfBlocks fSplitMethod p).length = rowCount fSplitMethod p.2 :=
  length_addMessages fSplitMethod p.2.header [] p.1 p.2.messages

/-- The sub time frames that have a group: those with messages, and the last one. -/
def grouped : List SubFrame → List SubFrame
  | [] => []
  | [stf] => [stf]
  | stf :: next :: stfs => (if stf.messages = [] then [] else [stf]) ++ grouped (next :: stfs)

/-- A row is searched if every group reaches it. -/
def Searched (fSplitMethod : Int) (stfs : List SubFrame) (i : Nat) : Prop :=
  ∀ stf ∈ grouped stfs, i < rowCount fSplitMethod stf

instance (fSplitMethod : Int) (stfs : List SubFrame) (i : Nat) :
    Decidable (Searched fSplitMethod stfs i) :=
  inferInstanceAs (Decidable (∀ stf ∈ grouped stfs, i < rowCount fSplitMethod stf))

theorem rowCount_eq_zero {fSplitMethod : Int} {stf : SubFrame} (h : stf.messages = []) :
    rowCount fSplitMethod stf = 0 := by
  rw [rowCount, rows, h]
  rfl

theorem rowCount_pos {fSplitMethod : Int} {stf : SubFrame} (h : stf.messages ≠ []) :
    0 < rowCount fSplitMethod stf := by
  obtain ⟨msg, messages, heq⟩ := List.exists_cons_of_ne_nil h
  rw [rowCount, rows, heq, rowsFrom, List.getLast?_cons]
  exact Nat.succ_pos _

/-- All groups, the open one included, reach row `i`. -/
def AllReach (s : BlockMapState) (i : Nat) : Prop :=
  (∀ blocks ∈ s.block_map, i < blocks.length) ∧ i < s.blocks.length

theorem allReach_subFrames_iff (fSplitMethod : Int) {stfs : List SubFrame} (hne : stfs ≠ [])
    (base : Nat) (s : BlockMapState) (i : Nat) :
    AllReach (((stfs.flatMap SubFrame.parts).zipIdx base).foldl
        (makeBlockMapStep fSplitMethod) s) i ↔
      (∀ blocks ∈ s.block_map, i < blocks.length) ∧
        (s.blocks = [] ∨ i < s.blocks.length) ∧ Searched fSplitMethod stfs i := by
  induction stfs generalizing base s with
  | nil => exact absurd rfl hne
  | cons stf stfs ih =>
      have hclosed : (∀ blocks ∈ if 0 < s.blocks.length then s.block_map ++ [s.blocks]
          else s.block_map, i < blocks.length) ↔
          (∀ blocks ∈ s.block_map, i < blocks.length) ∧ (s.blocks = [] ∨ i < s.blocks.length) := by
        cases hblocks : s.blocks with
        | nil => simp
        | cons dbl dbls => simp [or_imp, forall_and]
      have hown := length_stfBlocks fSplitMethod (base + 1, stf)
      rw [List.flatMap_cons, List.zipIdx_append, List.foldl_append, foldl_step_subFrame]
      cases stfs with
      | nil =>
          rw [List.flatMap_nil, List.zipIdx_nil, List.foldl_nil, AllReach, hclosed, hown, and_assoc]
          simp [Searched, grouped]
      | cons next stfs =>
          rw [ih (List.cons_ne_nil next stfs), hclosed, and_assoc]
          refine and_congr_right fun _ => and_congr_right fun _ => ?_
          rw [← List.length_eq_zero_iff, hown]
          by_cases hempty : stf.messages = []
          · simp [Searched, grouped, hempty, rowCount_eq_zero]
          · have hpos := @rowCount_pos fSplitMethod stf hempty
            simp [Searched, grouped, hempty, Nat.ne_of_gt hpos]

/-- The row loop runs over the rows that are searched. -/
theorem lt_minBlockCount_frameParts_iff (fSplitMethod : Int) {tf : TimeFrame.Header}
    (hmagic : tf.magic = TimeFrame.MAGIC) {stfs : List SubFrame} (hne : stfs ≠ []) (i : Nat) :
    i < minBlockCount (makeBlockMap fSplitMethod (frameParts tf stfs)) ↔
      Searched fSplitMethod stfs i := by
  have hreach := allReach_subFrames_iff fSplitMethod hne 1 { i_tfHeader := some 0 } i
  rw [lt_minBlockCount_iff (by simp [makeBlockMap]), makeBlockMap, List.forall_mem_append,
    List.forall_mem_singleton, blockMapLoop, frameParts, List.zipIdx_cons, List.foldl_cons,
    makeBlockMapStep_tf fSplitMethod hmagic]
  exact hreach.trans (by simp)

end FltTrig
end Exam6
end Userworks
