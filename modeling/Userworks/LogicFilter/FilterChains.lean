import Userworks.Lib.Results
import Userworks.LogicFilter.FilteredRuns
import Userworks.LogicFilter.TableBounds

/-!
Filter devices one behind the other. A device finds the filter blocks of those before
it between the header and the sub time frames, where they make up a group of their own
whose messages no decoder reads. The group has at least as many blocks as there are
rows, so every device finds the times that it finds in the frame without those blocks.

The devices are as `InitTask` makes them: with a time region of 131072 cells and a table
that is read inside its bounds, which no time frame changes.
-/
namespace Userworks

/-! ### The devices -/

/-- Registration asserts that there is a bit for every signal. -/
theorem Trigger.length_le_of_register {Map : Type} {t t' : Trigger Map} {es : List Entry}
    (h : t.register es = .ok t') : es.length ≤ 32 := by
  have hcount : ∀ (es : List Entry) (t t' : Trigger Map), t.fEntryCounts ≤ 32 →
      es.foldlM (fun t e => t.entry e.module e.ch e.offset) t = .ok t' →
      t.fEntryCounts + es.length ≤ 32 := by
    intro es
    induction es with
    | nil => exact fun t t' hroom _ => hroom
    | cons e es ih =>
        intro t t' hroom hfold
        rw [List.foldlM_cons] at hfold
        by_cases hnext : t.fEntryCounts + 1 ≤ 32
        · rw [Trigger.entry, if_pos hnext] at hfold
          have hrest := ih _ t' hnext hfold
          rw [List.length_cons]
          dsimp only at hrest
          omega
        · rw [Trigger.entry, if_neg hnext] at hfold
          cases hfold
  have hall := hcount es t.clearEntry t' (Nat.zero_le 32) h
  have hnone : t.clearEntry.fEntryCounts = 0 := rfl
  omega

/-- A new table is read inside its bounds. -/
theorem TriggerMap.inside_of_makeTable {text : Text} {tm : TriggerMap}
    (h : ({} : TriggerMap).makeTable text = .ok tm) (v : BitVec 32) :
    tm.lookUpIndex v < tm.fLut.length := by
  cases hset : LogiCalc.setFormula infixtorpn text with
  | error fault =>
      rw [TriggerMap.makeTable, buildTable, hset] at h
      cases h
  | ok lc =>
      have hvalid := valid_of_makeTable hset h
      obtain ⟨lut, hlength, hmake⟩ := makeTable_of_valid hvalid
      rw [hmake, Except.ok.injEq] at h
      have hsig := hvalid.2.1
      rw [← h, made_fLut, hlength]
      exact (lookUpIndex_lt_iff _ (by omega) (by omega) rfl rfl).mpr (Nat.le_refl _) v

namespace LogicFilter

/-- `Exec` of the trigger stays inside the time region and the table. -/
structure Initialised (t : TypedTrigger) : Prop where
  ready : ∃ es, t.trg.Ready es
  table : ∀ v, t.trg.fTMap.lookUpIndex v < t.trg.fTMap.fLut.length

theorem initialised_of_makeTrigger {signals : List (List (BitVec 32))} {window_width : Int}
    {contents : List (BitVec 32)} {expression : ExprParser.TrgExpression} {t : TypedTrigger}
    (h : makeTrigger signals window_width contents expression = .ok t) : Initialised t := by
  obtain ⟨trg, hreg, h⟩ := ok_of_bind h
  obtain ⟨tm, hmake, h⟩ := ok_of_bind h
  rw [registerSignals_eq] at hreg
  have hpos : 0 < (BitVec.ofNat 32 131072).toNat := by decide
  obtain ⟨trg', hreg', hready, hconfig⟩ := Trigger.register_ready
    ({ fTMap := {} } : Trigger TriggerMap) (Trigger.length_le_of_register hreg) hpos contents
  obtain rfl : trg' = trg := Except.ok.inj (hreg'.symm.trans hreg)
  have hfresh : trg'.fTMap = {} := hconfig.table
  rw [hfresh] at hmake
  rw [← Except.ok.inj h]
  refine ⟨⟨_, ⟨hready.aligned.ch, hready.aligned.delay, hready.aligned.bit,
    hready.aligned.counts⟩, hready.room, hready.alloc, hready.pos⟩, ?_⟩
  exact TriggerMap.inside_of_makeTable hmake

theorem initTask_initialised {contents : Nat → List (BitVec 32)} {o : Options} {f : LogicFilter}
    (h : initTask contents o = .ok f) :
    f.fSplitMethod = o.splitMethod ∧ ∀ t ∈ f.fTrig, Initialised t := by
  obtain ⟨expressions, -, h⟩ := ok_of_bind h
  obtain ⟨fTrig, htriggers, h⟩ := ok_of_bind h
  rw [← Except.ok.inj h]
  refine ⟨rfl, fun t ht => ?_⟩
  obtain ⟨expression, -, hmade⟩ := exists_of_mem_mapM htriggers ht
  exact initialised_of_makeTrigger hmade

/-- A time frame with messages between its header and its sub time frames. -/
def addedParts (tf : TimeFrame.Header) (added : List HeartbeatMessage)
    (stfs : List SubFrame) : List Bytes :=
  tf.encode :: (added.map HeartbeatMessage.bytes ++ stfs.flatMap SubFrame.parts)

/-- The added messages as a sub time frame with the numbers before the first header. -/
def leadFrame (added : List HeartbeatMessage) : SubFrame where
  header := { timeFrameId := 0, femType := 0, femId := 0 }
  magic := rfl
  messages := added

/-! ### The block map -/

theorem makeBlockMap_addedParts (m : Int) {tf : TimeFrame.Header}
    (hmagic : tf.magic = TimeFrame.MAGIC) (added : List HeartbeatMessage)
    (stfs : List SubFrame) :
    makeBlockMap m (addedParts tf added stfs) =
      flushed ((leadFrame added).blocks m 1 :: groupsFrom m (1 + added.length) stfs) := by
  have hskip : makeBlockMapStep m {} (tf.encode, 0) = {} := by
    rw [makeBlockMapStep, if_pos (tf.field_encode.trans hmagic)]
  rw [makeBlockMap, addedParts, List.zipIdx_cons, List.foldl_cons, hskip, List.zipIdx_append,
    List.foldl_append, foldl_step_messages, List.length_map]
  exact foldl_step_subFrames m stfs (1 + added.length) _

/-- The cell of an added message: data of a module type that is not known. -/
def addedCell (imsg : Nat) (msg : HeartbeatMessage) : Bool × List HBFIndex :=
  (false, [{ msgIndex := imsg, timeFrameId := 0, femType := 0, femId := 0, data := msg.bytes }])

theorem cells_leadFrame (m : Int) (imsg : Nat) (added : List HeartbeatMessage) :
    (leadFrame added).cells m imsg = added.map (addedCell imsg) := by
  have hstep : ∀ cells (msg : HeartbeatMessage),
      addCell m (leadFrame added).header imsg cells msg.bytes = cells ++ [addedCell imsg msg] := by
    intro cells msg
    have hdata : isHartBeat (field 8 0 msg.bytes) (leadFrame added).header.femType < 0 :=
      show (-1 : Int) < 0 by decide
    rw [addCell, if_pos (Or.inr hdata)]
    rfl
  simp only [SubFrame.cells, hstep]
  exact foldl_append_singleton (addedCell imsg) added []

/-- What is seen of the groups that are kept. -/
def flushedCells {α : Type} (groups : List (List α)) : List (List α) :=
  (groups.dropLast.filter fun cells => 0 < cells.length) ++ [groups.getLastD []]

theorem map_flushed {α : Type} (see : DataBlock → α) (groups : List (List DataBlock)) :
    (flushed groups).map (List.map see) = flushedCells (groups.map (List.map see)) := by
  rw [flushed, flushedCells, List.map_append, ← List.map_dropLast, List.filter_map,
    List.map_singleton, List.getLastD_eq_getLast?, List.getLastD_eq_getLast?, List.getLast?_map]
  cases groups.getLast? <;> simp [Function.comp_def]

theorem flushedCells_cons {α : Type} (first : List α) {groups : List (List α)}
    (hne : groups ≠ []) :
    flushedCells (first :: groups) =
      (if 0 < first.length then [first] else []) ++ flushedCells groups := by
  obtain ⟨second, rest, rfl⟩ := List.exists_cons_of_ne_nil hne
  by_cases hfirst : 0 < first.length
  · simp [flushedCells, hfirst, List.getLastD]
  · simp [flushedCells, hfirst, List.getLastD]

/-- What is seen of the block map: the added messages, if there are any, and what is
seen without them. -/
theorem map_cell_addedParts (m : Int) {tf : TimeFrame.Header} (hmagic : tf.magic = TimeFrame.MAGIC)
    (added : List HeartbeatMessage) {stfs : List SubFrame} (hne : stfs ≠ []) (imsg : Nat) :
    (makeBlockMap m (addedParts tf added stfs)).map
        (List.map (cell (addedParts tf added stfs) imsg)) =
      (if 0 < added.length then [added.map (addedCell imsg)] else []) ++
        flushedCells (stfs.map (SubFrame.cells m imsg)) := by
  have hlead : ((leadFrame added).blocks m 1).map (cell (addedParts tf added stfs) imsg) =
      added.map (addedCell imsg) := by
    rw [← cells_leadFrame m imsg added]
    refine SubFrame.observe_blocks m (List.map (cell (addedParts tf added stfs) imsg))
      (fun h cells msg => addCell m h imsg cells msg)
      (fun h _ _ blocks hi hpart => map_cell_addBlock m h hi hpart blocks) (leadFrame added)
      Nat.one_pos fun k msg hk => ?_
    have hk' : added[k]? = some msg := hk
    have hlt := (List.getElem?_eq_some_iff.mp hk').1
    rw [addedParts, Nat.add_comm, List.getElem?_cons_succ,
      List.getElem?_append_left (by rw [List.length_map]; exact hlt), List.getElem?_map, hk']
    rfl
  have hgroups := @map_cell_groupsFrom m stfs (addedParts tf added stfs) imsg
    (tf.encode :: added.map HeartbeatMessage.bytes) (Nat.succ_pos _) rfl
  rw [List.length_cons, List.length_map, Nat.add_comm] at hgroups
  rw [makeBlockMap_addedParts m hmagic, map_flushed, List.map_cons, hlead, hgroups,
    flushedCells_cons _ (by simpa using hne), List.length_map]

theorem buildHBF_eq_cells (block_map : List (List DataBlock)) (inParts : List Bytes)
    (imsg : Nat) :
    buildHBF block_map inParts imsg =
      (block_map.map (List.map (cell inParts imsg))).flatMap
        fun cells => (cells[imsg]?.map Prod.snd).getD [] := by
  rw [List.flatMap_map, buildHBF]
  refine List.flatMap_congr fun blocks _ => ?_
  rw [List.getElem?_map]
  cases blocks[imsg]? <;> rfl

theorem length_cells (block_map : List (List DataBlock)) (inParts : List Bytes) (imsg : Nat) :
    block_map.map List.length =
      (block_map.map (List.map (cell inParts imsg))).map List.length := by
  simp [Function.comp_def]

/-! ### The triggers -/

theorem mark_unknown {Map : Type} (lookUp : Map → BitVec 32 → Bool) (t : Trigger Map) (data : Bytes)
    (fem : BitVec 32) : t.mark ⟨tdcHit, lookUp⟩ data fem 0 = t := by
  have hchannel : ∀ (t : Trigger Map) ch delay markbit,
      t.markChannel tdcHit data 0 ch delay markbit = t := by
    intro t ch delay markbit
    rw [Trigger.markChannel]
    exact List.foldl_fixed' (fun _ => rfl) _
  rw [Trigger.mark]
  exact List.foldl_fixed' (fun _ => hchannel _ _ _ _) _

theorem exec_append_unknown (t : Trigger TriggerMap) {lead : List HBFIndex}
    (hlead : ∀ seg ∈ lead, seg.femType = 0) (hbf : List HBFIndex) :
    t.exec triggerCopy (lead ++ hbf) = t.exec triggerCopy hbf := by
  rw [Trigger.exec, Trigger.exec, List.foldl_append]
  congr 2
  generalize t.cleanUpTimeRegion = start
  induction lead with
  | nil => rfl
  | cons seg lead ih =>
      rw [List.forall_mem_cons] at hlead
      rw [List.foldl_cons, hlead.1, triggerCopy, mark_unknown]
      exact ih hlead.2

section Added

variable (m : Int) {tf tf' : TimeFrame.Header} {added : List HeartbeatMessage}
  {stfs : List SubFrame}

/-- The number of rows of a time frame without added messages. -/
def rowCount (m : Int) (tf : TimeFrame.Header) (stfs : List SubFrame) : Nat :=
  minBlockCount (makeBlockMap m (frameParts tf stfs))

theorem map_cell_frameParts (hmagic : tf.magic = TimeFrame.MAGIC) (hne : stfs ≠ []) (imsg : Nat) :
    (makeBlockMap m (frameParts tf stfs)).map (List.map (cell (frameParts tf stfs) imsg)) =
      flushedCells (stfs.map (SubFrame.cells m imsg)) :=
  map_cell_addedParts m hmagic [] hne imsg

theorem minBlockCount_addedParts (hmagic : tf.magic = TimeFrame.MAGIC)
    (hmagic' : tf'.magic = TimeFrame.MAGIC) (hne : stfs ≠ [])
    (hroom : added = [] ∨ rowCount m tf stfs ≤ added.length) :
    minBlockCount (makeBlockMap m (addedParts tf' added stfs)) = rowCount m tf stfs := by
  have hcells : (makeBlockMap m (addedParts tf' added stfs)).map List.length =
      (if 0 < added.length then [added.length] else []) ++
        (makeBlockMap m (frameParts tf stfs)).map List.length := by
    rw [length_cells _ (addedParts tf' added stfs) 0, length_cells _ (frameParts tf stfs) 0,
      map_cell_addedParts m hmagic' added hne, map_cell_frameParts m hmagic hne, List.map_append]
    split <;> simp
  have hmap : makeBlockMap m (frameParts tf stfs) ≠ [] := by simp [makeBlockMap]
  have hmap' : makeBlockMap m (addedParts tf' added stfs) ≠ [] := by simp [makeBlockMap]
  have hleast := minBlockCount_isLeast hmap
  refine (minBlockCount_isLeast hmap').unique ⟨?_, ?_⟩
  · rw [hcells]
    exact List.mem_append_right _ hleast.1
  · intro n hn
    rw [hcells] at hn
    cases List.mem_append.mp hn with
    | inl hn =>
        by_cases hpos : 0 < added.length
        · rw [if_pos hpos, List.mem_singleton] at hn
          cases hroom with
          | inl hnil => simp [hnil] at hpos
          | inr hle => exact hn ▸ hle
        · rw [if_neg hpos] at hn
          exact absurd hn List.not_mem_nil
    | inr hn => exact hleast.2 hn

/-- A row is that of the frame without added messages, behind segments that are not read. -/
theorem buildHBF_addedParts (hmagic : tf.magic = TimeFrame.MAGIC)
    (hmagic' : tf'.magic = TimeFrame.MAGIC) (hne : stfs ≠ []) (i : Nat) :
    ∃ lead, (∀ seg ∈ lead, seg.femType = 0) ∧
      buildHBF (makeBlockMap m (addedParts tf' added stfs)) (addedParts tf' added stfs) i =
        lead ++ buildHBF (makeBlockMap m (frameParts tf stfs)) (frameParts tf stfs) i := by
  rw [buildHBF_eq_cells, map_cell_addedParts m hmagic' added hne, buildHBF_eq_cells,
    map_cell_frameParts m hmagic hne, List.flatMap_append]
  refine ⟨_, ?_, rfl⟩
  intro seg hseg
  split at hseg
  · rw [List.flatMap_singleton, List.getElem?_map] at hseg
    cases hmsg : added[i]? with
    | none =>
        rw [hmsg] at hseg
        exact absurd hseg List.not_mem_nil
    | some msg =>
        rw [hmsg] at hseg
        exact congrArg HBFIndex.femType (List.mem_singleton.mp hseg)
  · exact absurd hseg List.not_mem_nil

theorem runTrigger_addedParts (hmagic : tf.magic = TimeFrame.MAGIC)
    (hmagic' : tf'.magic = TimeFrame.MAGIC) (hne : stfs ≠ [])
    (hroom : added = [] ∨ rowCount m tf stfs ≤ added.length) (t : TypedTrigger) :
    runTrigger m (addedParts tf' added stfs) t = runTrigger m (frameParts tf stfs) t := by
  have hrow : ∀ s i, execRow triggerCopy (makeBlockMap m (addedParts tf' added stfs))
      (addedParts tf' added stfs) s i =
      execRow triggerCopy (makeBlockMap m (frameParts tf stfs)) (frameParts tf stfs) s i := by
    intro s i
    obtain ⟨lead, hlead, hbuild⟩ :=
      @buildHBF_addedParts m tf tf' added stfs hmagic hmagic' hne i
    rw [execRow, execRow, hbuild, exec_append_unknown s.1 hlead]
  have hrows : execRows triggerCopy t.trg (makeBlockMap m (addedParts tf' added stfs))
      (addedParts tf' added stfs) =
      execRows triggerCopy t.trg (makeBlockMap m (frameParts tf stfs)) (frameParts tf stfs) := by
    rw [execRows, execRows, minBlockCount_addedParts m hmagic hmagic' hne hroom]
    exact List.foldl_ext _ _ _ fun s i _ => hrow s i
  rw [runTrigger, runTrigger, hrows]

end Added

/-! ### One device in a chain -/

/-- The device when it has run on a time frame. -/
def after (f : LogicFilter) (inParts : List Bytes) : LogicFilter :=
  { f with fTrig := f.fTrig.map fun t => (runTrigger f.fSplitMethod inParts t).1 }

theorem Initialised.runTrigger {t : TypedTrigger} (h : Initialised t) (fSplitMethod : Int)
    (inParts : List Bytes) : Initialised (LogicFilter.runTrigger fSplitMethod inParts t).1 := by
  obtain ⟨es, hready⟩ := h.ready
  obtain ⟨hready', hconfig⟩ := hready.foldl_exec triggerCopy (rowsOf fSplitMethod inParts)
  rw [← execRows_fst] at hready' hconfig
  refine ⟨⟨es, hready'⟩, ?_⟩
  have htable : (LogicFilter.runTrigger fSplitMethod inParts t).1.trg.fTMap = t.trg.fTMap :=
    hconfig.table
  rw [htable]
  exact h.table

/-- Time frames leave the triggers initialised. -/
theorem initialised_foldl_after {f : LogicFilter} (h : ∀ t ∈ f.fTrig, Initialised t)
    (earlier : List (List Bytes)) : ∀ t ∈ (earlier.foldl after f).fTrig, Initialised t := by
  induction earlier generalizing f with
  | nil => exact h
  | cons inParts earlier ih =>
      apply ih
      intro t ht
      obtain ⟨t', ht', rfl⟩ := List.mem_map.mp ht
      exact (h t' ht').runTrigger f.fSplitMethod inParts

/-- A message that is not taken for one of the two headers. -/
def Plain (msg : Bytes) : Prop :=
  8 ≤ msg.length ∧ field 8 0 msg ≠ TimeFrame.MAGIC ∧ field 8 0 msg ≠ SubTimeFrame.MAGIC

theorem plain_filterHeader (h : Filter.Header) (hmagic : h.magic = Filter.MAGIC) :
    Plain h.encode := by
  have hfield : field 8 0 h.encode = Filter.MAGIC := by
    rw [Filter.Header.encode, field_put_self, hmagic]
  refine ⟨?_, ?_, ?_⟩
  · rw [h.length_encode]
    decide
  · rw [hfield]
    decide
  · rw [hfield]
    decide

theorem plain_trgTimeMessage (v : List (BitVec 32)) (trg_type : BitVec 32) :
    Plain (trgTimeMessage v trg_type) := by
  have hfield : field 8 0 (trgTimeMessage v trg_type) = Filter.TDC_MAGIC := by
    rw [trgTimeMessage_eq, Filter.TrgTimeHeader.encode, List.append_assoc, field_put_self]
  refine ⟨?_, ?_, ?_⟩
  · rw [length_trgTimeMessage]
    omega
  · rw [hfield]
    decide
  · rw [hfield]
    decide

theorem plain_blocksOf (f : LogicFilter) (now : Clock) (inParts : List Bytes) :
    ∀ msg ∈ f.blocksOf now inParts, Plain msg := by
  intro msg hmsg
  obtain ⟨td, -, hmsg⟩ := List.mem_flatMap.mp hmsg
  rw [blockOf] at hmsg
  cases List.mem_cons.mp hmsg with
  | inl heq => exact heq ▸ plain_filterHeader _ rfl
  | inr hmem =>
      obtain ⟨v, -, rfl⟩ := List.mem_map.mp hmem
      exact plain_trgTimeMessage v _

theorem exists_messages {bss : List Bytes} (h : ∀ msg ∈ bss, Plain msg) :
    ∃ messages : List HeartbeatMessage, messages.map HeartbeatMessage.bytes = bss := by
  induction bss with
  | nil => exact ⟨[], rfl⟩
  | cons msg bss ih =>
      rw [List.forall_mem_cons] at h
      obtain ⟨messages, hmessages⟩ := ih h.2
      obtain ⟨hword, hframe, hsub⟩ := h.1
      exact ⟨⟨msg, hword, hframe, hsub⟩ :: messages, by rw [List.map_cons, hmessages]⟩

/-- A device with a trigger adds at least as many messages as there are rows. -/
theorem rowCount_le_blocksOf {f : LogicFilter} (htrig : f.fTrig ≠ []) (now : Clock)
    (tf : TimeFrame.Header) (stfs : List SubFrame) :
    rowCount f.fSplitMethod tf stfs ≤ (f.blocksOf now (frameParts tf stfs)).length := by
  obtain ⟨t, rest, ht⟩ := List.exists_cons_of_ne_nil htrig
  have hrows : (runTrigger f.fSplitMethod (frameParts tf stfs) t).2.length =
      rowCount f.fSplitMethod tf stfs := length_triggerTimes triggerCopy _ _ _
  rw [blocksOf, ht, List.map_cons, List.zipIdx_cons, List.flatMap_cons, List.length_append, blockOf,
    List.length_cons, List.length_map]
  dsimp only
  omega

section Step

variable {tf tf' : TimeFrame.Header} {added : List HeartbeatMessage} {stfs : List SubFrame}

theorem timeFrameIdOf_addedParts (hmagic : tf.magic = TimeFrame.MAGIC)
    (added : List HeartbeatMessage) (stfs : List SubFrame) :
    timeFrameIdOf (addedParts tf added stfs) = tf.timeFrameId := by
  have hskip : ∀ (parts : List Bytes), (∀ msg ∈ parts, field 8 0 msg ≠ TimeFrame.MAGIC) →
      ∀ id, parts.foldl (fun tf_tf_id msg =>
        if field 8 0 msg = TimeFrame.MAGIC then (TimeFrame.Header.decode msg).timeFrameId
        else tf_tf_id) id = id := by
    intro parts
    induction parts with
    | nil => exact fun _ _ => rfl
    | cons msg parts ih =>
        intro h id
        rw [List.forall_mem_cons] at h
        rw [List.foldl_cons, if_neg h.1, ih h.2]
  rw [timeFrameIdOf, addedParts, List.foldl_cons, if_pos (tf.field_encode.trans hmagic),
    tf.decode_encode_self]
  apply hskip
  intro msg hmsg
  cases List.mem_append.mp hmsg with
  | inl hmem =>
      obtain ⟨hb, -, rfl⟩ := List.mem_map.mp hmem
      exact hb.notTimeFrame
  | inr hmem =>
      obtain ⟨stf, -, hmem⟩ := List.mem_flatMap.mp hmem
      cases List.mem_cons.mp hmem with
      | inl heq =>
          rw [heq, stf.header.field_encode, stf.magic]
          decide
      | inr hmem =>
          obtain ⟨hb, -, rfl⟩ := List.mem_map.mp hmem
          exact hb.notTimeFrame

theorem setLength_encode (tf : TimeFrame.Header) (tf_len : BitVec 32) :
    setLength tf_len tf.encode = TimeFrame.Header.encode { tf with length := tf_len } := by
  have htake : tf.encode.take 8 = put 8 tf.magic := by
    rw [TimeFrame.Header.encode, List.take_left' (length_put 8 _)]
  have hdrop : tf.encode.drop 12 = put 2 tf.hLength ++ (put 2 tf.type ++
      (put 4 tf.timeFrameId ++ put 4 tf.numSource)) := by
    rw [TimeFrame.Header.encode, ← List.append_assoc, List.drop_left' (by simp)]
  rw [setLength, htake, hdrop]
  rfl

/-- The header with the length of the frame that it begins. -/
def counted (tf : TimeFrame.Header) (body : List Bytes) : TimeFrame.Header :=
  { tf with length := BitVec.ofNat 32 (24 + (body.map List.length).sum) }

/-- The frame that a device sends: `more` is its blocks in front of what was added before. -/
theorem conditionalRun_addedParts (f : LogicFilter) (now : Clock)
    (hmagic : tf.magic = TimeFrame.MAGIC) (hmagic' : tf'.magic = TimeFrame.MAGIC)
    (hid : tf'.timeFrameId = tf.timeFrameId) (hne : stfs ≠ [])
    (hroom : added = [] ∨ rowCount f.fSplitMethod tf stfs ≤ added.length)
    {more : List HeartbeatMessage}
    (hmore : more.map HeartbeatMessage.bytes =
      f.blocksOf now (frameParts tf stfs) ++ added.map HeartbeatMessage.bytes) :
    f.conditionalRun now (addedParts tf' added stfs) =
      .ok (f.after (frameParts tf stfs), addedParts
        (counted tf' (more.map HeartbeatMessage.bytes ++ stfs.flatMap SubFrame.parts)) more
        stfs) := by
  have hrest : added.map HeartbeatMessage.bytes ++ stfs.flatMap SubFrame.parts ≠ [] := by
    obtain ⟨stf, rest, rfl⟩ := List.exists_cons_of_ne_nil hne
    simp [SubFrame.parts]
  have htrigger : runTrigger f.fSplitMethod (addedParts tf' added stfs) =
      runTrigger f.fSplitMethod (frameParts tf stfs) :=
    funext (runTrigger_addedParts f.fSplitMethod hmagic hmagic' hne hroom)
  have hblocks : f.blocksOf now (addedParts tf' added stfs) =
      f.blocksOf now (frameParts tf stfs) := by
    have hframe : timeFrameIdOf (frameParts tf stfs) = tf.timeFrameId :=
      timeFrameIdOf_addedParts hmagic [] stfs
    simp only [blocksOf, htrigger, timeFrameIdOf_addedParts hmagic', hid, hframe]
  have hhead : 12 ≤ tf'.encode.length := by
    rw [TimeFrame.Header.length_encode]
    decide
  have hrun := conditionalRun_eq f now hhead hrest
  have hparts : tf'.encode :: (added.map HeartbeatMessage.bytes ++ stfs.flatMap SubFrame.parts) =
      addedParts tf' added stfs := rfl
  rw [hparts, hblocks, setLength_encode, ← List.append_assoc, ← hmore, totalSize_eq, List.map_cons,
    List.sum_cons, TimeFrame.Header.length_encode] at hrun
  simp only [htrigger] at hrun
  exact hrun

end Step

/-! ### Runs of a chain -/

/-- A time frame passes the devices in order. The number of a device selects its clock. -/
def chainFrame (now : Nat → Clock) :
    List (LogicFilter × Nat) → List Bytes → Except Fault (List LogicFilter × List Bytes)
  | [], parts => .ok ([], parts)
  | (f, i) :: chain, parts => do
      let (f, parts) ← f.conditionalRun (now i) parts
      let (fs, parts) ← chainFrame now chain parts
      return (f :: fs, parts)

def chainRun (fs : List LogicFilter) :
    List ((Nat → Clock) × List Bytes) → Except Fault (List (List Bytes))
  | [] => .ok []
  | (now, parts) :: frames => do
      let (fs, parts) ← chainFrame now fs.zipIdx parts
      let sent ← chainRun fs frames
      return parts :: sent

/-- A time frame that comes to a chain, and what the clocks show then. -/
structure ChainInput where
  now : Nat → Clock
  tf : TimeFrame.Header
  magic : tf.magic = TimeFrame.MAGIC
  stfs : List SubFrame
  ne_nil : stfs ≠ []

def ChainInput.parts (input : ChainInput) : List Bytes := frameParts input.tf input.stfs

/-- The messages behind the header: the blocks that the devices make of the original frame,
those of the last device first, and the sub time frames. -/
def ChainInput.body (input : ChainInput) (chain : List (LogicFilter × Nat)) : List Bytes :=
  chain.reverse.flatMap (fun fi => fi.1.blocksOf (input.now fi.2) input.parts) ++
    input.stfs.flatMap SubFrame.parts

def ChainInput.sent (input : ChainInput) (chain : List (LogicFilter × Nat)) : List Bytes :=
  (counted input.tf (input.body chain)).encode :: input.body chain

/-- What a chain sends, each device seeing the original frames only. -/
def sentAlone (fs : List LogicFilter) : List ChainInput → List (List Bytes)
  | [] => []
  | input :: inputs =>
      input.sent fs.zipIdx :: sentAlone (fs.map fun f => f.after input.parts) inputs

section Chain

variable {m : Int}

/-- What a device adds leaves no group that is too short. -/
theorem room_after {f : LogicFilter} (now : Clock) (tf : TimeFrame.Header)
    (stfs : List SubFrame) {added more : List HeartbeatMessage}
    (hroom : added = [] ∨ rowCount f.fSplitMethod tf stfs ≤ added.length)
    (hmore : more.map HeartbeatMessage.bytes =
      f.blocksOf now (frameParts tf stfs) ++ added.map HeartbeatMessage.bytes) :
    more = [] ∨ rowCount f.fSplitMethod tf stfs ≤ more.length := by
  have hcount := congrArg List.length hmore
  rw [List.length_map, List.length_append, List.length_map] at hcount
  by_cases htrig : f.fTrig = []
  · have hnone : f.blocksOf now (frameParts tf stfs) = [] := by
      rw [blocksOf, htrig]
      rfl
    rw [hnone, List.length_nil, Nat.zero_add] at hcount
    cases hroom with
    | inl hnil =>
        rw [hnil, List.length_nil] at hcount
        exact Or.inl (List.length_eq_zero_iff.mp hcount)
    | inr hle => exact Or.inr (by omega)
  · have hle := rowCount_le_blocksOf htrig now tf stfs
    exact Or.inr (by omega)

theorem exists_added {added : List HeartbeatMessage} {bss : List Bytes}
    (h : ∀ msg ∈ bss, Plain msg) :
    ∃ more : List HeartbeatMessage, more.map HeartbeatMessage.bytes =
      bss ++ added.map HeartbeatMessage.bytes := by
  obtain ⟨messages, hmessages⟩ := exists_messages h
  exact ⟨messages ++ added, by rw [List.map_append, hmessages]⟩

/-- The part of a chain behind some devices; `added` is what those have added. -/
theorem chainFrame_addedParts (input : ChainInput) (chain : List (LogicFilter × Nat))
    (hsame : ∀ fi ∈ chain, fi.1.fSplitMethod = m) {tf_len : BitVec 32}
    {added : List HeartbeatMessage}
    (hroom : added = [] ∨ rowCount m input.tf input.stfs ≤ added.length) (hne : chain ≠ []) :
    let body := chain.reverse.flatMap (fun fi => fi.1.blocksOf (input.now fi.2) input.parts) ++
      (added.map HeartbeatMessage.bytes ++ input.stfs.flatMap SubFrame.parts)
    chainFrame input.now chain (addedParts { input.tf with length := tf_len } added input.stfs) =
      .ok (chain.map fun fi => fi.1.after input.parts, (counted input.tf body).encode :: body) := by
  induction chain generalizing tf_len added with
  | nil => exact absurd rfl hne
  | cons fi chain ih =>
      obtain ⟨f, i⟩ := fi
      rw [List.forall_mem_cons] at hsame
      obtain rfl : f.fSplitMethod = m := hsame.1
      obtain ⟨more, hmore⟩ := @exists_added added _ (plain_blocksOf f (input.now i) input.parts)
      have hrun := @conditionalRun_addedParts input.tf { input.tf with length := tf_len } added
        input.stfs f (input.now i) input.magic input.magic rfl input.ne_nil hroom more hmore
      rw [chainFrame, hrun]
      simp only [bind, Except.bind, List.reverse_cons, List.flatMap_append, List.flatMap_singleton,
        List.append_assoc]
      by_cases hlast : chain = []
      · subst hlast
        simp only [chainFrame, hmore, addedParts, List.append_assoc]
        rfl
      · rw [counted, ih hsame.2 (room_after _ _ _ hroom hmore) hlast, hmore]
        simp only [List.append_assoc]
        rfl

theorem chainFrame_sent (input : ChainInput) {fs : List LogicFilter} (hne : fs ≠ [])
    (hsame : ∀ f ∈ fs, f.fSplitMethod = m) :
    chainFrame input.now fs.zipIdx input.parts =
      .ok (fs.map fun f => f.after input.parts, input.sent fs.zipIdx) := by
  have hsame' : ∀ fi ∈ fs.zipIdx, fi.1.fSplitMethod = m := by
    intro fi hfi
    exact hsame _ (List.fst_mem_of_mem_zipIdx hfi)
  have hrun := @chainFrame_addedParts m input fs.zipIdx hsame' input.tf.length [] (Or.inl rfl)
    (by simpa using hne)
  have hafter : fs.zipIdx.map (fun fi => fi.1.after input.parts) =
      fs.map fun f => f.after input.parts := by
    have hfst := congrArg (List.map fun f : LogicFilter => f.after input.parts)
      (List.zipIdx_map_fst 0 fs)
    rwa [List.map_map] at hfst
  rw [hafter] at hrun
  exact hrun

theorem chainRun_eq {fs : List LogicFilter} (hne : fs ≠ [])
    (hsame : ∀ f ∈ fs, f.fSplitMethod = m) (inputs : List ChainInput) :
    chainRun fs (inputs.map fun input => (input.now, input.parts)) =
      .ok (sentAlone fs inputs) := by
  induction inputs generalizing fs with
  | nil => rfl
  | cons input inputs ih =>
      rw [List.map_cons, chainRun, chainFrame_sent input hne hsame]
      simp only [bind, Except.bind]
      rw [ih (by simpa using hne)]
      · rfl
      · intro f hf
        obtain ⟨f, hmem, rfl⟩ := List.mem_map.mp hf
        exact hsame f hmem

end Chain

/-- Over every sequence of time frames a chain of devices, configured in any way but with
one split method, sends the blocks that each device makes of the original frames, and the
header counts them all. Before every frame the triggers are as they have to be for `Exec`. -/
theorem chainRun_sentAlone {m : Int} {os : List ((Nat → List (BitVec 32)) × Options)}
    (hsame : ∀ o ∈ os, o.2.splitMethod = m) {fs : List LogicFilter} (hne : fs ≠ [])
    (hinit : os.mapM (fun o => initTask o.1 o.2) = .ok fs) (inputs : List ChainInput) :
    chainRun fs (inputs.map fun input => (input.now, input.parts)) =
        .ok (sentAlone fs inputs) ∧
      ∀ f ∈ fs, ∀ earlier, earlier <+: inputs →
        ∀ t ∈ ((earlier.map ChainInput.parts).foldl after f).fTrig, Initialised t := by
  have hdevices : ∀ f ∈ fs, f.fSplitMethod = m ∧ ∀ t ∈ f.fTrig, Initialised t := by
    intro f hf
    obtain ⟨o, ho, hmade⟩ := exists_of_mem_mapM hinit hf
    obtain ⟨hmethod, htriggers⟩ := initTask_initialised hmade
    exact ⟨hmethod.trans (hsame o ho), htriggers⟩
  refine ⟨chainRun_eq hne (fun f hf => (hdevices f hf).1) inputs, ?_⟩
  exact fun f hf earlier _ => initialised_foldl_after (hdevices f hf).2 _

/-- The coincidence in the sub time frames of two modules: leading edges at 1000 on channel 5
of the one and at 1002 on channel 6 of the other. -/
def coincidenceFrames : List SubFrame :=
  [{ oneHeartbeat with
      messages := ⟨putWords [0x2c280000003e8000#64], by decide, by decide, by decide⟩ ::
        oneHeartbeat.messages },
    { noHeartbeat with
      messages := ⟨putWords [0x2c300000003ea000#64], by decide, by decide, by decide⟩ ::
        oneHeartbeat.messages }]

/-- The segments in the row of the coincidence. -/
def coincidenceRow : List HBFIndex :=
  [{ msgIndex := 0, timeFrameId := 0, femType := SubTimeFrame.TDC64H_V3, femId := 0x20,
     data := putWords [0x2c280000003e8000#64] },
    { msgIndex := 0, timeFrameId := 0, femType := SubTimeFrame.TDC64H_V3, femId := 0x21,
      data := putWords [0x2c300000003ea000#64] }]

theorem rowsOf_coincidenceFrames :
    rowsOf 1 (frameParts {} coincidenceFrames) = [coincidenceRow, []] := by
  decide +kernel

/-- The first signal is on from five time units before its edge, the second one by then as
well. -/
theorem mem_meantTimes_coincidence :
    995#32 ∈ meantTimes 10 [⟨32, 5, 0⟩, ⟨33, 6, -2⟩] coincidence coincidenceRow := by
  have hbefore : ¬ SignalAt 131072 10 [⟨32, 5, 0⟩, ⟨33, 6, -2⟩] coincidenceRow 994 0 := by
    rintro ⟨e, he, seg, hseg, hmodule, w, hw, tdc4n, hedge, -, hnear⟩
    cases he
    rcases List.mem_pair.mp hseg with rfl | rfl
    · have hword : words (putWords [0x2c280000003e8000#64]) = [0x2c280000003e8000#64] := by decide
      rw [hword, List.mem_singleton] at hw
      subst hw
      have htime : leadingEdge SubTimeFrame.TDC64H_V3 0x2c280000003e8000#64 = some (5, 1000) := by
        decide
      cases htime.symm.trans hedge
      exact absurd hnear (by decide)
    · exact absurd hmodule (by decide)
  have hfirst : SignalAt 131072 10 [⟨32, 5, 0⟩, ⟨33, 6, -2⟩] coincidenceRow 995 0 :=
    ⟨⟨32, 5, 0⟩, rfl, _, List.mem_cons_self, rfl, 0x2c280000003e8000#64, by decide, 1000, by decide,
      by decide, by decide⟩
  have hsecond : SignalAt 131072 10 [⟨32, 5, 0⟩, ⟨33, 6, -2⟩] coincidenceRow 995 1 :=
    ⟨⟨33, 6, -2⟩, rfl, _, List.mem_cons_of_mem _ List.mem_cons_self, rfl, 0x2c300000003ea000#64,
      by decide, 1002, by decide, by decide, by decide⟩
  have hpattern : ∀ p : Nat → Prop, coincidence.expr.eval (patternOf p) = true ↔ p 0 ∧ p 1 := by
    intro p
    rw [← getLsbD_patternOf (p := p) (show 0 < 32 by decide),
      ← getLsbD_patternOf (p := p) (show 1 < 32 by decide), ← Bool.and_eq_true]
    rfl
  refine List.mem_map.mpr ⟨995, mem_risingEdges.mpr ⟨by decide, by decide, ?_, ?_⟩, rfl⟩
  · rw [← Bool.not_eq_true]
    exact fun hon => hbefore ((hpattern _).mp hon).1
  · exact (hpattern _).mpr ⟨hfirst, hsecond⟩

/-- Two devices that find the coincidence, in a frame in which it turns true at 995. -/
theorem chainRun_sentAlone_coincidence :
    let input : ChainInput := {
      now := fun _ => ⟨0, fun _ => 0, fun _ => 0⟩, tf := {}, magic := rfl,
      stfs := coincidenceFrames, ne_nil := List.cons_ne_nil _ _ }
    ∃ f, initTask (fun _ => []) coincidenceOptions = .ok f ∧
      (∃ t ∈ f.fTrig, ∃ times ∈ (runTrigger 1 input.parts t).2, 995#32 ∈ times) ∧
      chainRun [f, f] [(input.now, input.parts)] = .ok (sentAlone [f, f] [input]) ∧
      ∀ f' ∈ [f, f], ∀ earlier, earlier <+: [input] →
        ∀ t ∈ ((earlier.map ChainInput.parts).foldl after f').fTrig, Initialised t := by
  intro input
  have hread : ExprParser.parsing coincidenceOptions.triggerExpression =
      .ok [coincidence.trigger] := by
    decide +kernel
  have hsignals : signalsOf (SignalParser.parsing coincidenceOptions.triggerSignals) =
      [⟨32, 5, 0⟩, ⟨33, 6, -2⟩] := by
    decide +kernel
  obtain ⟨t, ht, hconfigured⟩ := @makeTrigger_configured coincidence
    (SignalParser.parsing coincidenceOptions.triggerSignals) (by rw [hsignals]; decide) 10 []
  rw [hsignals] at hconfigured
  let f : LogicFilter := { fId := 1, fSplitMethod := 1, fTrig := [t] }
  have hinit : initTask (fun _ => []) coincidenceOptions = .ok f := by
    have ht' : makeTrigger (SignalParser.parsing coincidenceOptions.triggerSignals)
        coincidenceOptions.triggerWidth [] coincidence.trigger = .ok t := ht
    simp only [initTask, hread, bind, Except.bind, List.zipIdx_cons, List.zipIdx_nil,
      List.mapM_cons, List.mapM_nil, ht']
    rfl
  refine ⟨f, hinit, ⟨t, List.mem_cons_self, _, ?_, mem_meantTimes_coincidence⟩, ?_⟩
  · have hrows := (hconfigured.runTrigger (by decide) (by decide) 1 input.parts).1
    rw [hrows, show rowsOf 1 input.parts = _ from rowsOf_coincidenceFrames]
    exact List.mem_cons_self
  · refine @chainRun_sentAlone 1 [((fun _ => []), coincidenceOptions),
      ((fun _ => []), coincidenceOptions)] ?_ [f, f] (List.cons_ne_nil _ _) ?_ [input]
    · intro o ho
      rcases List.mem_pair.mp ho with rfl | rfl <;> rfl
    · simp only [List.mapM_cons, List.mapM_nil, hinit, bind, Except.bind]
      rfl

end LogicFilter
end Userworks
