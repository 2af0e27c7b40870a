import Userworks.Exam6.FltTrig

/-!
Rows and message numbers of a time frame in the filter of exam6.

A sub time frame is a group of its own. Its messages stand in rows one after the
other, and in split method 1 a heartbeat without a data message before it leaves
one row to a dummy block. So the row of a message is found without the block map,
and a row of the block map holds the messages with that row number, one of each
sub time frame.
-/
namespace Userworks
namespace Exam6
namespace FltTrig

open LogicFilter (HeartbeatMessage SubFrame frameParts noDataBlock)

/-- The first word of the message is a heartbeat word of the module type. -/
def isHeartbeat (femType : BitVec 32) (msg : HeartbeatMessage) : Bool :=
  0 ≤ isHartBeat (field 8 0 msg.bytes) femType

/-- The rows of messages of which the first may stand in row `next`; `noData` says
that no data message stands right before it. -/
def rowsFrom (fSplitMethod : Int) (femType : BitVec 32) : Nat → Bool → List HeartbeatMessage →
    List Nat
  | _, _, [] => []
  | next, noData, msg :: messages =>
      let i := if isHeartbeat femType msg ∧ fSplitMethod = 1 ∧ noData then next + 1 else next
      i :: rowsFrom fSplitMethod femType (i + 1) (isHeartbeat femType msg) messages

/-- The row of each message of a sub time frame. -/
def rows (fSplitMethod : Int) (stf : SubFrame) : List Nat :=
  rowsFrom fSplitMethod stf.header.femType 0 true stf.messages

/-- Sub time frames with the numbers of their first messages, if the first header
has the number `base`. -/
def subFramesFrom : Nat → List SubFrame → List (Nat × SubFrame)
  | _, [] => []
  | base, stf :: stfs => (base + 1, stf) :: subFramesFrom (base + stf.parts.length) stfs

/-- The sub time frames behind the header of a time frame. -/
abbrev subFrames (stfs : List SubFrame) : List (Nat × SubFrame) := subFramesFrom 1 stfs

theorem length_parts (stf : SubFrame) : stf.parts.length = stf.messages.length + 1 := by
  rw [SubFrame.parts, List.length_cons, List.length_map]

theorem mem_subFramesFrom_iff {base : Nat} {stfs : List SubFrame} {p : Nat × SubFrame} :
    p ∈ subFramesFrom base stfs ↔ ∃ before after, stfs = before ++ p.2 :: after ∧
      p.1 = base + (before.flatMap SubFrame.parts).length + 1 := by
  induction stfs generalizing base with
  | nil => simp [subFramesFrom]
  | cons stf stfs ih =>
      rw [subFramesFrom, List.mem_cons, ih]
      constructor
      · intro h
        cases h with
        | inl heq =>
            subst heq
            exact ⟨[], stfs, rfl, rfl⟩
        | inr hrest =>
            obtain ⟨before, after, rfl, hnumber⟩ := hrest
            refine ⟨stf :: before, after, rfl, ?_⟩
            rw [hnumber, List.flatMap_cons, List.length_append]
            omega
      · intro h
        obtain ⟨before, after, heq, hnumber⟩ := h
        cases before with
        | nil =>
            cases heq
            exact Or.inl (Prod.ext hnumber rfl)
        | cons first before =>
            cases heq
            refine Or.inr ⟨before, after, rfl, ?_⟩
            rw [hnumber, List.flatMap_cons, List.length_append]
            omega

/-- A message of a sub time frame in the time frame. -/
theorem getElem?_frameParts {tf : TimeFrame.Header} {stfs : List SubFrame} {p : Nat × SubFrame}
    (hp : p ∈ subFrames stfs) {k : Nat} (hk : k < p.2.messages.length) :
    (frameParts tf stfs)[p.1 + k]? = some p.2.messages[k].bytes := by
  obtain ⟨before, after, rfl, hnumber⟩ := mem_subFramesFrom_iff.mp hp
  rw [frameParts, hnumber, List.flatMap_append, List.flatMap_cons,
    show 1 + (before.flatMap SubFrame.parts).length + 1 + k =
      (before.flatMap SubFrame.parts).length + (k + 1) + 1 by omega,
    List.getElem?_cons_succ, List.getElem?_append_right (by omega), Nat.add_sub_cancel_left,
    SubFrame.parts, List.cons_append, List.getElem?_cons_succ,
    List.getElem?_append_left (by simpa using hk), List.getElem?_map,
    List.getElem?_eq_getElem hk, Option.map_some]

/-- Behind the time frame header every message is a header or has its place in a sub
time frame. -/
theorem header_or_message {stfs : List SubFrame} {base i : Nat} {msg : Bytes}
    (h : (stfs.flatMap SubFrame.parts)[i]? = some msg) :
    isStf msg = true ∨ ∃ p ∈ subFramesFrom base stfs, ∃ k, k < p.2.messages.length ∧
      base + i = p.1 + k := by
  induction stfs generalizing base i with
  | nil => simp at h
  | cons stf stfs ih =>
      rw [List.flatMap_cons] at h
      rw [subFramesFrom, List.exists_mem_cons_iff]
      by_cases hi : i < stf.parts.length
      · rw [List.getElem?_append_left hi] at h
        cases i with
        | zero =>
            cases h
            left
            simp [isStf, stf.header.field_encode, stf.magic]
        | succ k =>
            rw [length_parts] at hi
            exact Or.inr (Or.inl ⟨k, Nat.lt_of_succ_lt_succ hi, by omega⟩)
      · rw [List.getElem?_append_right (by omega)] at h
        cases @ih (base + stf.parts.length) _ h with
        | inl hheader => exact Or.inl hheader
        | inr hmessage =>
            obtain ⟨p, hp, k, hk, hnumber⟩ := hmessage
            exact Or.inr (Or.inr ⟨p, hp, k, hk, by omega⟩)

theorem exists_mem_subFrames {stfs : List SubFrame} {stf : SubFrame} (h : stf ∈ stfs) :
    ∃ base, (base, stf) ∈ subFrames stfs := by
  obtain ⟨before, after, heq⟩ := List.append_of_mem h
  exact ⟨_, mem_subFramesFrom_iff.mpr ⟨before, after, heq, rfl⟩⟩

theorem mem_of_mem_subFrames {stfs : List SubFrame} {p : Nat × SubFrame}
    (h : p ∈ subFrames stfs) : p.2 ∈ stfs := by
  obtain ⟨before, after, heq, -⟩ := mem_subFramesFrom_iff.mp h
  rw [heq]
  exact List.mem_append_right _ List.mem_cons_self

theorem lt_of_mem_subFramesFrom {base : Nat} {stfs : List SubFrame} {p : Nat × SubFrame}
    (h : p ∈ subFramesFrom base stfs) : base < p.1 := by
  obtain ⟨before, after, -, hnumber⟩ := mem_subFramesFrom_iff.mp h
  omega

/-- The messages of a sub time frame end before the next header. -/
theorem subFramesFrom_pairwise (base : Nat) (stfs : List SubFrame) :
    (subFramesFrom base stfs).Pairwise fun p q => p.1 + p.2.messages.length < q.1 := by
  induction stfs generalizing base with
  | nil => exact List.Pairwise.nil
  | cons stf stfs ih =>
      refine List.Pairwise.cons ?_ (ih _)
      intro q hq
      have hlt := lt_of_mem_subFramesFrom hq
      rw [length_parts] at hlt
      show base + 1 + stf.messages.length < q.1
      omega

/-- A number at or right behind the messages of a sub time frame is not that of a
message of another one. -/
theorem number_inj {stfs : List SubFrame} {p q : Nat × SubFrame} (hp : p ∈ subFrames stfs)
    (hq : q ∈ subFrames stfs) {k l : Nat} (hk : k ≤ p.2.messages.length)
    (hl : l < q.2.messages.length) (h : p.1 + k = q.1 + l) : p = q ∧ k = l := by
  have hpairwise : (subFrames stfs).Pairwise _ := subFramesFrom_pairwise 1 stfs
  have hordered := List.pairwise_iff_getElem.mp hpairwise
  obtain ⟨i, hi, rfl⟩ := List.getElem_of_mem hp
  obtain ⟨j, hj, rfl⟩ := List.getElem_of_mem hq
  cases Nat.lt_trichotomy i j with
  | inl hlt =>
      have hbefore := hordered i j hi hj hlt
      omega
  | inr hge =>
      cases hge with
      | inl heq =>
          subst heq
          exact ⟨rfl, by omega⟩
      | inr hgt =>
          have hbefore := hordered j i hj hi hgt
          omega

/-- The block of the message with the number `i` in a sub time frame. -/
def blockAt (h : SubTimeFrame.Header) (i : Nat) (msg : HeartbeatMessage) : DataBlock :=
  messageBlock h.femId h.femType i (field 8 0 msg.bytes)

@[simp] theorem blockAt_is_HB (h : SubTimeFrame.Header) (i : Nat) (msg : HeartbeatMessage) :
    (blockAt h i msg).is_HB = isHeartbeat h.femType msg := by
  rw [blockAt, messageBlock, isHeartbeat]
  split
  · next hneg => simp [Int.not_le.mpr hneg]
  · next hneg => simp [Int.not_lt.mp hneg]

@[simp] theorem blockAt_msg_index (h : SubTimeFrame.Header) (i : Nat) (msg : HeartbeatMessage) :
    (blockAt h i msg).msg_index = i := by
  rw [blockAt, messageBlock]
  split <;> rfl

@[simp] theorem blockAt_type (h : SubTimeFrame.Header) (i : Nat) (msg : HeartbeatMessage) :
    (blockAt h i msg).type = h.femType := by
  rw [blockAt, messageBlock]
  split <;> rfl

theorem addBlock_eq (fSplitMethod : Int) (h : SubTimeFrame.Header) (blocks : List DataBlock)
    (i : Nat) (msg : HeartbeatMessage) :
    addBlock fSplitMethod h.femId h.femType blocks i (field 8 0 msg.bytes) =
      if isHeartbeat h.femType msg ∧ fSplitMethod = 1 ∧ noDataBlock DataBlock.is_HB blocks then
        blocks ++ [dummyBlock h.femId, blockAt h i msg]
      else blocks ++ [blockAt h i msg] := by
  rw [addBlock, ← blockAt, blockAt_is_HB]

theorem noDataBlock_concat (before : List DataBlock) (b : DataBlock) :
    noDataBlock DataBlock.is_HB (before ++ [b]) = b.is_HB := by
  rw [noDataBlock, List.getLast?_concat]

def addMessages (fSplitMethod : Int) (h : SubTimeFrame.Header) (blocks : List DataBlock)
    (base : Nat) (messages : List HeartbeatMessage) : List DataBlock :=
  (messages.zipIdx base).foldl (fun blocks part =>
    addBlock fSplitMethod h.femId h.femType blocks part.2 (field 8 0 part.1.bytes)) blocks

/-- The group of a sub time frame. -/
def stfBlocks (fSplitMethod : Int) (p : Nat × SubFrame) : List DataBlock :=
  addMessages fSplitMethod p.2.header [] p.1 p.2.messages

/-- The blocks that are not dummies are those of the messages, at their rows. -/
theorem filter_zipIdx_addMessages (fSplitMethod : Int) (h : SubTimeFrame.Header)
    (blocks : List DataBlock) (base : Nat) (messages : List HeartbeatMessage) :
    ((addMessages fSplitMethod h blocks base messages).zipIdx.filter
        fun b => b.1.msg_index ≠ -2) =
      (blocks.zipIdx.filter fun b => b.1.msg_index ≠ -2) ++
        List.zipWith (fun part i => (blockAt h part.2 part.1, i)) (messages.zipIdx base)
          (rowsFrom fSplitMethod h.femType blocks.length (noDataBlock DataBlock.is_HB blocks)
            messages) := by
  induction messages generalizing blocks base with
  | nil => simp [addMessages, rowsFrom]
  | cons msg messages ih =>
      have hdummy : (dummyBlock h.femId).msg_index = -2 := rfl
      rw [addMessages, List.zipIdx_cons, List.foldl_cons, ← addMessages, ih, rowsFrom, addBlock_eq]
      split
      · rw [List.append_cons, noDataBlock_concat]
        simp [List.zipIdx_append, hdummy]
      · rw [noDataBlock_concat]
        simp [List.zipIdx_append]

theorem foldl_step_messages (fSplitMethod : Int) (h : SubTimeFrame.Header) (base : Nat)
    (messages : List HeartbeatMessage) (s : BlockMapState) (hfem : s.femid = h.femId)
    (hdev : s.devtype = h.femType) :
    ((messages.map HeartbeatMessage.bytes).zipIdx base).foldl (makeBlockMapStep fSplitMethod) s =
      { s with blocks := addMessages fSplitMethod h s.blocks base messages } := by
  induction messages generalizing base s with
  | nil => rfl
  | cons msg messages ih =>
      have hstep : makeBlockMapStep fSplitMethod s (msg.bytes, base) =
          { s with blocks :=
              addBlock fSplitMethod h.femId h.femType s.blocks base (field 8 0 msg.bytes) } := by
        rw [makeBlockMapStep, if_neg msg.notTimeFrame, if_neg msg.notSubTimeFrame, hfem, hdev]
      rw [List.map_cons, List.zipIdx_cons, List.foldl_cons, hstep]
      exact ih (base + 1) _ hfem hdev

/-- A sub time frame closes the group before it and leaves its own one open. -/
theorem foldl_step_subFrame (fSplitMethod : Int) (stf : SubFrame) (base : Nat)
    (s : BlockMapState) :
    (stf.parts.zipIdx base).foldl (makeBlockMapStep fSplitMethod) s =
      { s with
        femid := stf.header.femId
        devtype := stf.header.femType
        block_map := if 0 < s.blocks.length then s.block_map ++ [s.blocks] else s.block_map
        blocks := stfBlocks fSplitMethod (base + 1, stf) } := by
  have hstep : makeBlockMapStep fSplitMethod s (stf.header.encode, base) =
      { s with
        femid := stf.header.femId
        devtype := stf.header.femType
        block_map := if 0 < s.blocks.length then s.block_map ++ [s.blocks] else s.block_map
        blocks := [] } := by
    simp only [makeBlockMapStep, stf.header.field_encode, stf.magic,
      stf.header.decode_encode_self, if_true]
    rfl
  rw [SubFrame.parts, List.zipIdx_cons, List.foldl_cons, hstep,
    foldl_step_messages fSplitMethod stf.header _ _ _ rfl rfl]
  rfl

/-- A block that is reached in some group, the open one included. -/
def InGroups (s : BlockMapState) (i : Nat) (dbl : DataBlock) : Prop :=
  ∃ blocks ∈ s.block_map ++ [s.blocks], blocks[i]? = some dbl

theorem inGroups_subFrame_iff (fSplitMethod : Int) (stf : SubFrame) (base : Nat)
    (s : BlockMapState) (i : Nat) (dbl : DataBlock) :
    InGroups ((stf.parts.zipIdx base).foldl (makeBlockMapStep fSplitMethod) s) i dbl ↔
      InGroups s i dbl ∨ (stfBlocks fSplitMethod (base + 1, stf))[i]? = some dbl := by
  rw [foldl_step_subFrame]
  by_cases hopen : 0 < s.blocks.length
  · simp [InGroups, hopen, or_and_right, exists_or, or_assoc]
  · have hnil : s.blocks = [] := List.eq_nil_of_length_eq_zero (by omega)
    simp [InGroups, hnil, or_and_right, exists_or]

theorem inGroups_subFrames_iff (fSplitMethod : Int) (stfs : List SubFrame) (base : Nat)
    (s : BlockMapState) (i : Nat) (dbl : DataBlock) :
    InGroups (((stfs.flatMap SubFrame.parts).zipIdx base).foldl
        (makeBlockMapStep fSplitMethod) s) i dbl ↔
      InGroups s i dbl ∨
        ∃ p ∈ subFramesFrom base stfs, (stfBlocks fSplitMethod p)[i]? = some dbl := by
  induction stfs generalizing base s with
  | nil => simp [subFramesFrom]
  | cons stf stfs ih =>
      rw [List.flatMap_cons, List.zipIdx_append, List.foldl_append, ih, inGroups_subFrame_iff,
        subFramesFrom, List.exists_mem_cons_iff, or_assoc]

theorem makeBlockMapStep_tf (fSplitMethod : Int) {tf : TimeFrame.Header}
    (hmagic : tf.magic = TimeFrame.MAGIC) (s : BlockMapState) (i : Nat) :
    makeBlockMapStep fSplitMethod s (tf.encode, i) = { s with i_tfHeader := some i } := by
  rw [makeBlockMapStep, if_pos (tf.field_encode.trans hmagic)]

/-- A row holds the blocks that the groups of the sub time frames have there. -/
theorem mem_row_iff (fSplitMethod : Int) {tf : TimeFrame.Header}
    (hmagic : tf.magic = TimeFrame.MAGIC) (stfs : List SubFrame) (i : Nat) (dbl : DataBlock) :
    dbl ∈ row (makeBlockMap fSplitMethod (frameParts tf stfs)) i ↔
      ∃ p ∈ subFrames stfs, (stfBlocks fSplitMethod p)[i]? = some dbl := by
  have hgroups := inGroups_subFrames_iff fSplitMethod stfs 1 { i_tfHeader := some 0 } i dbl
  have hstart : ¬ InGroups { i_tfHeader := some 0 } i dbl := by simp [InGroups]
  rw [or_iff_right hstart] at hgroups
  rw [← hgroups, row, List.mem_filterMap, makeBlockMap, blockMapLoop, frameParts,
    List.zipIdx_cons, List.foldl_cons, makeBlockMapStep_tf fSplitMethod hmagic]
  rfl

/-- The blocks of a group that are not dummies stand at the rows of their messages. -/
theorem getElem?_stfBlocks_iff (fSplitMethod : Int) (p : Nat × SubFrame) (i : Nat)
    (dbl : DataBlock) :
    (stfBlocks fSplitMethod p)[i]? = some dbl ∧ dbl.msg_index ≠ -2 ↔
      ∃ k msg, p.2.messages[k]? = some msg ∧ (rows fSplitMethod p.2)[k]? = some i ∧
        dbl = blockAt p.2.header (p.1 + k) msg := by
  have hfilter := filter_zipIdx_addMessages fSplitMethod p.2.header [] p.1 p.2.messages
  have hmem := iff_of_eq (congrArg ((dbl, i) ∈ ·) hfilter)
  rw [List.mem_filter, List.mem_zipIdx_iff_getElem?, ← stfBlocks] at hmem
  rw [List.zipIdx_nil, List.filter_nil, List.nil_append, List.mem_iff_getElem?] at hmem
  simp only [decide_eq_true_eq] at hmem
  rw [hmem]
  refine exists_congr fun k => ?_
  rw [List.getElem?_zipWith_eq_some]
  constructor
  · rintro ⟨part, i', hpart, hi', heq⟩
    rw [List.getElem?_zipIdx, Option.map_eq_some_iff] at hpart
    obtain ⟨msg, hmsg, rfl⟩ := hpart
    cases heq
    exact ⟨msg, hmsg, hi', rfl⟩
  · rintro ⟨msg, hmsg, hi, rfl⟩
    refine ⟨(msg, p.1 + k), i, ?_, hi, rfl⟩
    rw [List.getElem?_zipIdx, hmsg]
    rfl

end FltTrig
end Exam6
end Userworks
