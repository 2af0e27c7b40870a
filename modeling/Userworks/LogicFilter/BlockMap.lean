import Userworks.LogicFilter.Trigger

/-!
The block map of a time frame: the messages behind each sub time frame header are
sorted into one group, and the heartbeat frames are then taken row by row through
the groups.

A group is closed by the next sub time frame header if it has a block, and the
last one is closed in any case. Flags of heartbeat words only go to the log and
are left out.
-/
namespace Userworks
namespace LogicFilter

structure DataBlock where
  femId : BitVec 32
  type : BitVec 32
  timeFrameId : BitVec 32
  HBFrame : Int
  is_HB : Bool
  msg_index : Int
  nTrig : Int
  deriving DecidableEq

/-- The frame number of a heartbeat word, and -1 for any other word. -/
def isHartBeat (val : Word) (type : BitVec 32) : Int :=
  if type = SubTimeFrame.TDC64H then
    let tdc := TDC64H.unpack val {}
    if tdc.type = T_HB then tdc.hartbeat else -1
  else if type = SubTimeFrame.TDC64L then
    let tdc := TDC64L.unpack val {}
    if tdc.type = T_HB then tdc.hartbeat else -1
  else if type = SubTimeFrame.TDC64L_V1 then
    let tdc := TDC64L.V1.unpack val {}
    if tdc.type = T_HB then tdc.hartbeat else -1
  else if type = SubTimeFrame.TDC64H_V3 then
    let tdc := TDC64H_V3.unpack val {}
    if tdc.type = T_HB1 then tdc.hartbeat else -1
  else if type = SubTimeFrame.TDC64L_V3 then
    let tdc := TDC64L_V3.unpack val {}
    if tdc.type = T_HB1 then tdc.hartbeat else -1
  else -1

/-- The variables of the loop over the messages. -/
structure BlockMapState where
  femid : BitVec 32 := 0
  time_frame_id : BitVec 32 := 0
  devtype : BitVec 32 := 0
  blocks : List DataBlock := []
  block_map : List (List DataBlock) := []

/-- No data block stands at the end: there is no block, or the last one is a
heartbeat. -/
def noDataBlock {Block : Type} (is_HB : Block → Bool) (blocks : List Block) : Bool :=
  match blocks.getLast? with
  | none => true
  | some back => is_HB back

/-- The blocks that a message adds. In split method 1 a heartbeat without a data
block before it first gets a dummy one. -/
def addBlock (fSplitMethod : Int) (femid devtype time_frame_id : BitVec 32)
    (blocks : List DataBlock) (i : Nat) (data0 : Word) : List DataBlock :=
  let hbframe := isHartBeat data0 devtype
  if data0 = HeartbeatFrame.MAGIC ∨ hbframe < 0 then
    blocks ++ [{
      femId := femid, type := devtype, is_HB := false, msg_index := i, nTrig := 0
      HBFrame := 0, timeFrameId := time_frame_id }]
  else
    let dummy : List DataBlock :=
      if fSplitMethod = 1 ∧ noDataBlock DataBlock.is_HB blocks then
        [{ femId := femid, type := SubTimeFrame.NULDEV, is_HB := false, msg_index := -2
           nTrig := 0, HBFrame := 0, timeFrameId := time_frame_id }]
      else []
    blocks ++ dummy ++ [{
      HBFrame := hbframe, femId := femid, type := devtype, is_HB := true, msg_index := i
      nTrig := 0, timeFrameId := time_frame_id }]

def makeBlockMapStep (fSplitMethod : Int) (s : BlockMapState) (part : Bytes × Nat) :
    BlockMapState :=
  let (msg, i) := part
  let magic := field 8 0 msg
  if magic = TimeFrame.MAGIC then s
  else if magic = SubTimeFrame.MAGIC then
    let stfHeader := SubTimeFrame.Header.decode msg
    { femid := stfHeader.femId
      devtype := stfHeader.femType
      time_frame_id := stfHeader.timeFrameId
      block_map := if 0 < s.blocks.length then s.block_map ++ [s.blocks] else s.block_map
      blocks := [] }
  else
    { s with
      blocks := addBlock fSplitMethod s.femid s.devtype s.time_frame_id s.blocks i magic }

def makeBlockMap (fSplitMethod : Int) (inParts : List Bytes) : List (List DataBlock) :=
  let s := inParts.zipIdx.foldl (makeBlockMapStep fSplitMethod) {}
  s.block_map ++ [s.blocks]

/-- `bsize_min`. -/
def minBlockCount (block_map : List (List DataBlock)) : Nat :=
  block_map.foldl (fun bsize_min blk => if blk.length < bsize_min then blk.length else bsize_min)
    (block_map.headD []).length

/-- The segment of a block, if it is a data block of a message behind the time
frame header. -/
def segment (inParts : List Bytes) (imsg : Nat) (dbl : DataBlock) : List HBFIndex :=
  if dbl.is_HB = false ∧ 0 < dbl.msg_index then
    [{ msgIndex := imsg
       timeFrameId := dbl.timeFrameId
       femType := dbl.type
       femId := dbl.femId
       data := inParts.getD dbl.msg_index.toNat [] }]
  else []

/-- The row `imsg` of the groups. All groups reach below `minBlockCount`. -/
def buildHBF (block_map : List (List DataBlock)) (inParts : List Bytes) (imsg : Nat) :
    List HBFIndex :=
  block_map.flatMap fun blocks =>
    match blocks[imsg]? with
    | some dbl => segment inParts imsg dbl
    | none => []

/-- One round of the loop of `ConditionalRun` over the rows for one trigger. -/
def execRow {Map : Type} (copy : TriggerCopy Map) (block_map : List (List DataBlock))
    (inParts : List Bytes) (s : Trigger Map × List (List (BitVec 32))) (i : Nat) :
    Trigger Map × List (List (BitVec 32)) :=
  let trg := s.1.exec copy (buildHBF block_map inParts i)
  (trg, s.2 ++ [trg.fHits])

def execRows {Map : Type} (copy : TriggerCopy Map) (trg : Trigger Map)
    (block_map : List (List DataBlock)) (inParts : List Bytes) :
    Trigger Map × List (List (BitVec 32)) :=
  (List.range (minBlockCount block_map)).foldl (execRow copy block_map inParts) (trg, [])

/-- The trigger times that a trigger returns for a time frame, row by row. -/
def triggerTimes {Map : Type} (copy : TriggerCopy Map) (fSplitMethod : Int) (trg : Trigger Map)
    (inParts : List Bytes) : List (List (BitVec 32)) :=
  (execRows copy trg (makeBlockMap fSplitMethod inParts) inParts).2

/-! Well-formed time frames and their groups. -/

/-- A message that is not taken for one of the two headers. -/
structure HeartbeatMessage where
  bytes : Bytes
  word : 8 ≤ bytes.length
  notTimeFrame : field 8 0 bytes ≠ TimeFrame.MAGIC
  notSubTimeFrame : field 8 0 bytes ≠ SubTimeFrame.MAGIC

structure SubFrame where
  header : SubTimeFrame.Header
  magic : header.magic = SubTimeFrame.MAGIC
  messages : List HeartbeatMessage

def SubFrame.parts (stf : SubFrame) : List Bytes :=
  stf.header.encode :: stf.messages.map HeartbeatMessage.bytes

/-- A time frame header followed by the messages of its sub time frames. -/
def frameParts (tf : TimeFrame.Header) (stfs : List SubFrame) : List Bytes :=
  tf.encode :: stfs.flatMap SubFrame.parts

/-- The blocks of one sub time frame whose first message has the number `base`. -/
def SubFrame.blocks (fSplitMethod : Int) (stf : SubFrame) (base : Nat) : List DataBlock :=
  (stf.messages.zipIdx base).foldl (fun blocks part =>
    addBlock fSplitMethod stf.header.femId stf.header.femType stf.header.timeFrameId blocks part.2
      (field 8 0 part.1.bytes)) []

def groupsFrom (fSplitMethod : Int) : Nat → List SubFrame → List (List DataBlock)
  | _, [] => []
  | base, stf :: stfs =>
      stf.blocks fSplitMethod (base + 1) ::
        groupsFrom fSplitMethod (base + stf.parts.length) stfs

/-- Every group is kept if it has a block, and the last one in any case. -/
def flushed (groups : List (List DataBlock)) : List (List DataBlock) :=
  (groups.dropLast.filter fun blocks => 0 < blocks.length) ++ [groups.getLastD []]

theorem foldl_step_messages (fSplitMethod : Int) (messages : List HeartbeatMessage) (base : Nat)
    (s : BlockMapState) :
    ((messages.map HeartbeatMessage.bytes).zipIdx base).foldl (makeBlockMapStep fSplitMethod) s =
      { s with
        blocks := (messages.zipIdx base).foldl (fun blocks part =>
          addBlock fSplitMethod s.femid s.devtype s.time_frame_id blocks part.2
            (field 8 0 part.1.bytes)) s.blocks } := by
  induction messages generalizing base s with
  | nil => rfl
  | cons msg messages ih =>
      have hstep : makeBlockMapStep fSplitMethod s (msg.bytes, base) =
          { s with
            blocks := addBlock fSplitMethod s.femid s.devtype s.time_frame_id s.blocks base
              (field 8 0 msg.bytes) } := by
        rw [makeBlockMapStep, if_neg msg.notTimeFrame, if_neg msg.notSubTimeFrame]
      rw [List.map_cons, List.zipIdx_cons, List.foldl_cons, hstep, ih]
      rfl

/-- A sub time frame closes the group before it and leaves its own one open. -/
theorem foldl_step_subFrame (fSplitMethod : Int) (stf : SubFrame) (base : Nat)
    (s : BlockMapState) :
    (stf.parts.zipIdx base).foldl (makeBlockMapStep fSplitMethod) s =
      { femid := stf.header.femId
        devtype := stf.header.femType
        time_frame_id := stf.header.timeFrameId
        block_map := if 0 < s.blocks.length then s.block_map ++ [s.blocks] else s.block_map
        blocks := stf.blocks fSplitMethod (base + 1) } := by
  have hmagic := stf.header.field_encode
  rw [SubFrame.parts, List.zipIdx_cons, List.foldl_cons, foldl_step_messages]
  simp only [makeBlockMapStep, hmagic, stf.magic, stf.header.decode_encode_self, if_true,
    SubFrame.blocks]
  rfl

theorem flushed_cons (first second : List DataBlock) (groups : List (List DataBlock)) :
    flushed (first :: second :: groups) =
      (if 0 < first.length then [first] else []) ++ flushed (second :: groups) := by
  by_cases hfirst : 0 < first.length
  · simp [flushed, hfirst, List.getLastD]
  · simp [flushed, hfirst, List.getLastD]

/-- From any state of the loop the groups of the remaining sub time frames come
behind the open one. -/
theorem foldl_step_subFrames (fSplitMethod : Int) (stfs : List SubFrame) (base : Nat)
    (s : BlockMapState) :
    (((stfs.flatMap SubFrame.parts).zipIdx base).foldl
        (makeBlockMapStep fSplitMethod) s).block_map ++
      [(((stfs.flatMap SubFrame.parts).zipIdx base).foldl
        (makeBlockMapStep fSplitMethod) s).blocks] =
      s.block_map ++ flushed (s.blocks :: groupsFrom fSplitMethod base stfs) := by
  induction stfs generalizing base s with
  | nil => rfl
  | cons stf stfs ih =>
      rw [List.flatMap_cons, List.zipIdx_append, List.foldl_append, foldl_step_subFrame, ih,
        groupsFrom, flushed_cons, Nat.add_comm base]
      by_cases hopen : 0 < s.blocks.length
      · simp [hopen]
      · simp [hopen]

/-- The groups of a well-formed time frame. -/
theorem makeBlockMap_frameParts (fSplitMethod : Int) {tf : TimeFrame.Header}
    (hmagic : tf.magic = TimeFrame.MAGIC) (stfs : List SubFrame) :
    makeBlockMap fSplitMethod (frameParts tf stfs) =
      flushed ([] :: groupsFrom fSplitMethod 1 stfs) := by
  have hskip : makeBlockMapStep fSplitMethod {} (tf.encode, 0) = {} := by
    rw [makeBlockMapStep, if_pos (tf.field_encode.trans hmagic)]
  rw [makeBlockMap, frameParts, List.zipIdx_cons, List.foldl_cons, hskip]
  exact foldl_step_subFrames fSplitMethod stfs 1 {}

/-! What is seen of the groups of a time frame is built up message by message. -/

section Observe

variable {α : Type} (fSplitMethod : Int) {inParts : List Bytes} (observe : List DataBlock → α)
  (add : SubTimeFrame.Header → α → Bytes → α)
  (hadd : ∀ (h : SubTimeFrame.Header) (i : Nat) (msg : Bytes) (blocks : List DataBlock), 0 < i →
    inParts[i]? = some msg →
    observe (addBlock fSplitMethod h.femId h.femType h.timeFrameId blocks i (field 8 0 msg)) =
      add h (observe blocks) msg)

include hadd

theorem SubFrame.observe_blocks (stf : SubFrame) {base : Nat} (hbase : 0 < base)
    (hparts : ∀ k msg, stf.messages[k]? = some msg → inParts[base + k]? = some msg.bytes) :
    observe (stf.blocks fSplitMethod base) =
      stf.messages.foldl (fun seen msg => add stf.header seen msg.bytes) (observe []) := by
  have hfold : ∀ (messages : List HeartbeatMessage) (base : Nat) (blocks : List DataBlock),
      0 < base → (∀ k msg, messages[k]? = some msg → inParts[base + k]? = some msg.bytes) →
      observe ((messages.zipIdx base).foldl (fun blocks part =>
        addBlock fSplitMethod stf.header.femId stf.header.femType stf.header.timeFrameId blocks
          part.2 (field 8 0 part.1.bytes)) blocks) =
      messages.foldl (fun seen msg => add stf.header seen msg.bytes) (observe blocks) := by
    intro messages
    induction messages with
    | nil => intros; rfl
    | cons msg messages ih =>
        intro base blocks hbase hparts
        rw [List.zipIdx_cons, List.foldl_cons, List.foldl_cons, ih _ _ (Nat.succ_pos base),
          hadd stf.header base msg.bytes blocks hbase (hparts 0 msg rfl)]
        intro k msg' hk
        have hnext := hparts (k + 1) msg' (by simpa using hk)
        rwa [show base + (k + 1) = base + 1 + k by omega] at hnext
  exact hfold stf.messages base [] hbase hparts

/-- Wherever the sub time frames stand, what is seen of their groups is their own. -/
theorem observe_groupsFrom (stfs : List SubFrame) {before : List Bytes}
    (hbefore : 0 < before.length) (hparts : inParts = before ++ stfs.flatMap SubFrame.parts) :
    (groupsFrom fSplitMethod before.length stfs).map observe = stfs.map fun stf =>
      stf.messages.foldl (fun seen msg => add stf.header seen msg.bytes) (observe []) := by
  induction stfs generalizing before with
  | nil => rfl
  | cons stf stfs ih =>
      rw [List.flatMap_cons, ← List.append_assoc] at hparts
      have hrest := ih (by simp only [List.length_append]; omega) hparts
      rw [List.length_append] at hrest
      rw [groupsFrom, List.map_cons, List.map_cons, hrest]
      congr 1
      apply stf.observe_blocks fSplitMethod observe add hadd (Nat.succ_pos _)
      intro k msg hk
      rw [hparts, List.append_assoc, List.getElem?_append_right (by omega),
        show before.length + 1 + k - before.length = k + 1 by omega, SubFrame.parts,
        List.cons_append, List.getElem?_cons_succ, List.getElem?_append_left, List.getElem?_map, hk]
      · rfl
      · rw [List.length_map]
        exact (List.getElem?_eq_some_iff.mp hk).1

end Observe

theorem length_addBlock_pos (fSplitMethod : Int) (femid devtype time_frame_id : BitVec 32)
    (blocks : List DataBlock) (i : Nat) (data0 : Word) :
    blocks.length < (addBlock fSplitMethod femid devtype time_frame_id blocks i data0).length := by
  simp only [addBlock]
  split <;> simp only [List.length_append, List.length_singleton] <;> omega

/-- A sub time frame has a block exactly when it has a message. -/
theorem SubFrame.blocks_eq_nil_iff (fSplitMethod : Int) (stf : SubFrame) (base : Nat) :
    stf.blocks fSplitMethod base = [] ↔ stf.messages = [] := by
  have hgrow : ∀ (messages : List HeartbeatMessage) (base : Nat) (blocks : List DataBlock),
      blocks.length ≤ ((messages.zipIdx base).foldl (fun blocks part =>
        addBlock fSplitMethod stf.header.femId stf.header.femType stf.header.timeFrameId blocks
          part.2 (field 8 0 part.1.bytes)) blocks).length := by
    intro messages
    induction messages with
    | nil => intro base blocks; exact Nat.le_refl _
    | cons msg messages ih =>
        intro base blocks
        rw [List.zipIdx_cons, List.foldl_cons]
        exact (Nat.le_of_lt (length_addBlock_pos _ _ _ _ _ _ _)).trans (ih _ _)
  constructor
  · intro hnil
    cases hmessages : stf.messages with
    | nil => rfl
    | cons msg messages =>
        have hone := length_addBlock_pos fSplitMethod stf.header.femId stf.header.femType
          stf.header.timeFrameId [] base (field 8 0 msg.bytes)
        rw [SubFrame.blocks, hmessages, List.zipIdx_cons, List.foldl_cons] at hnil
        have hall := hgrow messages (base + 1) (addBlock fSplitMethod stf.header.femId
          stf.header.femType stf.header.timeFrameId [] base (field 8 0 msg.bytes))
        rw [hnil, List.length_nil] at hall
        rw [List.length_nil] at hone
        omega
  · intro hnone
    rw [SubFrame.blocks, hnone]
    rfl

end LogicFilter
end Userworks
