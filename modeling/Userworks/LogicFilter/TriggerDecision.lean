import Userworks.LogicFilter.BlockMap
import Userworks.LogicFilter.TriggerMarking
import Mathlib.Order.Bounds.Basic

/-!
The trigger decision of a time frame and the order of its sub time frames.

While every sub time frame has a message, each one contributes its own row of
segments whatever its position is, and the engine does not look at the order of
segments. An empty sub time frame breaks this: as the last one it makes the
minimum block count zero, and anywhere else it is passed over.
-/
namespace Userworks
namespace LogicFilter

/-- What the row loop sees of a block: whether it is a heartbeat, and its segment. -/
def cell (inParts : List Bytes) (imsg : Nat) (dbl : DataBlock) : Bool × List HBFIndex :=
  (dbl.is_HB, segment inParts imsg dbl)

/-- The cells that a message adds, from its bytes instead of its number. -/
def addCell (fSplitMethod : Int) (h : SubTimeFrame.Header) (imsg : Nat)
    (cells : List (Bool × List HBFIndex)) (msg : Bytes) : List (Bool × List HBFIndex) :=
  if field 8 0 msg = HeartbeatFrame.MAGIC ∨ isHartBeat (field 8 0 msg) h.femType < 0 then
    cells ++ [(false, [{
      msgIndex := imsg, timeFrameId := h.timeFrameId, femType := h.femType, femId := h.femId
      data := msg }])]
  else
    cells ++ (if fSplitMethod = 1 ∧ noDataBlock Prod.fst cells then [(false, [])] else []) ++
      [(true, [])]

def SubFrame.cells (fSplitMethod : Int) (imsg : Nat) (stf : SubFrame) :
    List (Bool × List HBFIndex) :=
  stf.messages.foldl (fun cells msg => addCell fSplitMethod stf.header imsg cells msg.bytes) []

/-- The segment in one row of a sub time frame. -/
def SubFrame.row (fSplitMethod : Int) (imsg : Nat) (stf : SubFrame) : List HBFIndex :=
  match (stf.cells fSplitMethod imsg)[imsg]? with
  | some cell => cell.2
  | none => []

theorem map_cell_addBlock (fSplitMethod : Int) (h : SubTimeFrame.Header) {inParts : List Bytes}
    {imsg i : Nat} {msg : Bytes} (hi : 0 < i) (hpart : inParts[i]? = some msg)
    (blocks : List DataBlock) :
    (addBlock fSplitMethod h.femId h.femType h.timeFrameId blocks i (field 8 0 msg)).map
        (cell inParts imsg) =
      addCell fSplitMethod h imsg (blocks.map (cell inParts imsg)) msg := by
  have hdata : inParts.getD (i : Int).toNat [] = msg := by
    rw [Int.toNat_natCast, List.getD_eq_getElem?_getD, hpart, Option.getD_some]
  have hlast : noDataBlock Prod.fst (blocks.map (cell inParts imsg)) =
      noDataBlock DataBlock.is_HB blocks := by
    rw [noDataBlock, noDataBlock, List.getLast?_map]
    cases blocks.getLast? <;> rfl
  simp only [addBlock, addCell, hlast]
  split
  · simp only [List.map_append, List.map_singleton, cell, segment, hdata]
    simp [hi]
  · by_cases hdummy : fSplitMethod = 1 ∧ noDataBlock DataBlock.is_HB blocks = true
    · simp [hdummy, cell, segment]
    · simp [hdummy, cell, segment]

/-- Wherever the sub time frames stand, their cells are their own. -/
theorem map_cell_groupsFrom (fSplitMethod : Int) (stfs : List SubFrame) {inParts : List Bytes}
    (imsg : Nat) {before : List Bytes} (hbefore : 0 < before.length)
    (hparts : inParts = before ++ stfs.flatMap SubFrame.parts) :
    (groupsFrom fSplitMethod before.length stfs).map (List.map (cell inParts imsg)) =
      stfs.map (SubFrame.cells fSplitMethod imsg) :=
  observe_groupsFrom fSplitMethod (List.map (cell inParts imsg))
    (fun h cells msg => addCell fSplitMethod h imsg cells msg)
    (fun h _ _ blocks hi hpart => map_cell_addBlock fSplitMethod h hi hpart blocks) stfs hbefore
    hparts

theorem buildHBF_eq_rows (fSplitMethod : Int) {block_map : List (List DataBlock)}
    {inParts : List Bytes} {stfs : List SubFrame} (imsg : Nat)
    (h : block_map.map (List.map (cell inParts imsg)) =
      stfs.map (SubFrame.cells fSplitMethod imsg)) :
    buildHBF block_map inParts imsg = stfs.flatMap (SubFrame.row fSplitMethod imsg) := by
  have hrows := congrArg (List.flatMap fun cells : List (Bool × List HBFIndex) =>
    match cells[imsg]? with
    | some cell => cell.2
    | none => []) h
  rw [List.flatMap_map, List.flatMap_map] at hrows
  rw [buildHBF]
  refine Eq.trans (List.flatMap_congr fun blocks _ => ?_) hrows
  rw [List.getElem?_map]
  cases blocks[imsg]? <;> rfl

/-! The minimum block count. -/

theorem minBlockCount_isLeast {block_map : List (List DataBlock)} (h : block_map ≠ []) :
    IsLeast {n | n ∈ block_map.map List.length} (minBlockCount block_map) := by
  have hfold : ∀ (blocks : List (List DataBlock)) (start : Nat),
      let least := blocks.foldl (fun bsize_min blk =>
        if blk.length < bsize_min then blk.length else bsize_min) start
      (least = start ∨ least ∈ blocks.map List.length) ∧ least ≤ start ∧
        ∀ n ∈ blocks.map List.length, least ≤ n := by
    intro blocks
    induction blocks with
    | nil => exact fun start => ⟨Or.inl rfl, Nat.le_refl _, fun n hn => (List.not_mem_nil hn).elim⟩
    | cons blk blocks ih =>
        intro start
        obtain ⟨hmem, hle, hall⟩ := ih (if blk.length < start then blk.length else start)
        rw [List.foldl_cons]
        refine ⟨?_, ?_, ?_⟩
        · cases hmem with
          | inl hmem =>
              rw [hmem]
              split
              · exact Or.inr List.mem_cons_self
              · exact Or.inl rfl
          | inr hmem =>
              exact Or.inr (List.mem_cons_of_mem _ hmem)
        · exact hle.trans (by split <;> omega)
        · intro n hn
          cases List.mem_cons.mp hn with
          | inl heq =>
              subst heq
              exact hle.trans (by split <;> omega)
          | inr hn =>
              exact hall n hn
  obtain ⟨first, rest, rfl⟩ := List.exists_cons_of_ne_nil h
  obtain ⟨hmem, hle, hall⟩ := hfold (first :: rest) first.length
  refine ⟨?_, fun n hn => hall n hn⟩
  cases hmem with
  | inl hmem =>
      rw [minBlockCount, List.headD_cons, hmem]
      exact List.mem_cons_self
  | inr hmem =>
      exact hmem

/-- The count depends on the lengths of the groups only, in any order. -/
theorem minBlockCount_perm {block_map block_map' : List (List DataBlock)}
    (h : (block_map.map List.length).Perm (block_map'.map List.length)) :
    minBlockCount block_map = minBlockCount block_map' := by
  cases block_map with
  | nil =>
      have hnil : block_map' = [] := by
        have hlen := h.length_eq
        rw [List.length_map, List.length_map, List.length_nil] at hlen
        exact List.length_eq_zero_iff.mp hlen.symm
      rw [hnil]
  | cons first rest =>
      have hne : block_map' ≠ [] := by
        rintro rfl
        have hlen := h.length_eq
        simp at hlen
      have hleast := minBlockCount_isLeast (List.cons_ne_nil first rest)
      have hset : {n | n ∈ (first :: rest).map List.length} =
          {n | n ∈ block_map'.map List.length} := Set.ext fun n => h.mem_iff
      rw [hset] at hleast
      exact hleast.unique (minBlockCount_isLeast hne)

theorem groupsFrom_concat (fSplitMethod : Int) (stfs : List SubFrame) (stf : SubFrame)
    (base : Nat) :
    ∃ base', groupsFrom fSplitMethod base (stfs ++ [stf]) =
      groupsFrom fSplitMethod base stfs ++ [stf.blocks fSplitMethod base'] := by
  induction stfs generalizing base with
  | nil => exact ⟨base + 1, rfl⟩
  | cons first stfs ih =>
      obtain ⟨base', h⟩ := ih (base + first.parts.length)
      exact ⟨base', by rw [List.cons_append, groupsFrom, h]; rfl⟩

/-- The last sub time frame alone decides whether there is a row at all. -/
theorem minBlockCount_concat_eq_zero_iff (fSplitMethod : Int) {tf : TimeFrame.Header}
    (hmagic : tf.magic = TimeFrame.MAGIC) (stfs : List SubFrame) (stf : SubFrame) :
    minBlockCount (makeBlockMap fSplitMethod (frameParts tf (stfs ++ [stf]))) = 0 ↔
      stf.messages = [] := by
  obtain ⟨base, hgroups⟩ := groupsFrom_concat fSplitMethod stfs stf 1
  rw [makeBlockMap_frameParts fSplitMethod hmagic, hgroups, ← List.cons_append, flushed,
    List.dropLast_concat, List.getLastD_concat]
  generalize hkept : (([] : List DataBlock) :: groupsFrom fSplitMethod 1 stfs).filter
    (fun blocks => decide (0 < blocks.length)) = kept
  have hopen : ∀ blocks ∈ kept, 0 < blocks.length := by
    intro blocks hblocks
    rw [← hkept, List.mem_filter] at hblocks
    exact of_decide_eq_true hblocks.2
  obtain ⟨hmem, hle⟩ := minBlockCount_isLeast
    (show kept ++ [stf.blocks fSplitMethod base] ≠ [] by simp)
  rw [← stf.blocks_eq_nil_iff fSplitMethod base]
  constructor
  · intro hzero
    rw [hzero] at hmem
    obtain ⟨blocks, hblocks, hlen⟩ := List.mem_map.mp hmem
    cases List.mem_append.mp hblocks with
    | inl hblocks =>
        exact absurd hlen (Nat.ne_of_gt (hopen blocks hblocks))
    | inr hblocks =>
        rw [List.mem_singleton.mp hblocks] at hlen
        exact List.length_eq_zero_iff.mp hlen
  · intro hnil
    have hlast := hle (a := 0) (List.mem_map.mpr
      ⟨stf.blocks fSplitMethod base, by simp, by rw [hnil]; rfl⟩)
    omega

theorem flushed_of_pos {groups : List (List DataBlock)} (hne : groups ≠ [])
    (h : ∀ blocks ∈ groups, 0 < blocks.length) : flushed groups = groups := by
  have hkeep : groups.dropLast.filter (fun blocks => decide (0 < blocks.length)) =
      groups.dropLast := by
    rw [List.filter_eq_self]
    intro blocks hblocks
    exact decide_eq_true (h blocks ((List.dropLast_sublist _).subset hblocks))
  rw [flushed, hkeep, List.getLastD_eq_getLast?, List.getLast?_eq_some_getLast hne,
    Option.getD_some, List.dropLast_concat_getLast]

theorem groupsFrom_pos (fSplitMethod : Int) {stfs : List SubFrame}
    (hfull : ∀ stf ∈ stfs, stf.messages ≠ []) (base : Nat) :
    ∀ blocks ∈ groupsFrom fSplitMethod base stfs, 0 < blocks.length := by
  induction stfs generalizing base with
  | nil => exact fun blocks hblocks => (List.not_mem_nil hblocks).elim
  | cons stf stfs ih =>
      intro blocks hblocks
      cases List.mem_cons.mp hblocks with
      | inl heq =>
          subst heq
          rw [List.length_pos_iff, ne_eq, stf.blocks_eq_nil_iff]
          exact hfull stf List.mem_cons_self
      | inr hblocks =>
          exact ih (fun stf hstf => hfull stf (List.mem_cons_of_mem _ hstf)) _ blocks hblocks

/-- Without an empty sub time frame no group is dropped. -/
theorem makeBlockMap_of_nonempty (fSplitMethod : Int) {tf : TimeFrame.Header}
    (hmagic : tf.magic = TimeFrame.MAGIC) {stfs : List SubFrame} (hne : stfs ≠ [])
    (hfull : ∀ stf ∈ stfs, stf.messages ≠ []) :
    makeBlockMap fSplitMethod (frameParts tf stfs) = groupsFrom fSplitMethod 1 stfs := by
  have hpos := groupsFrom_pos fSplitMethod hfull 1
  obtain ⟨stf, rest, rfl⟩ := List.exists_cons_of_ne_nil hne
  rw [makeBlockMap_frameParts fSplitMethod hmagic]
  have hsome : groupsFrom fSplitMethod 1 (stf :: rest) ≠ [] := by simp [groupsFrom]
  generalize groupsFrom fSplitMethod 1 (stf :: rest) = groups at hpos hsome
  obtain ⟨first, groups, rfl⟩ := List.exists_cons_of_ne_nil hsome
  rw [flushed_cons, List.length_nil, if_neg (Nat.lt_irrefl 0), List.nil_append,
    flushed_of_pos hsome hpos]

/-! The rows as the engine executes them. -/

section Rows

variable {Map : Type} {copy : TriggerCopy Map} {t : Trigger Map} {es : List Entry}

theorem length_triggerTimes (copy : TriggerCopy Map) (fSplitMethod : Int) (t : Trigger Map)
    (inParts : List Bytes) :
    (triggerTimes copy fSplitMethod t inParts).length =
      minBlockCount (makeBlockMap fSplitMethod inParts) := by
  have hfold : ∀ (rows : List Nat) (s : Trigger Map × List (List (BitVec 32))),
      (rows.foldl (execRow copy (makeBlockMap fSplitMethod inParts) inParts) s).2.length =
        s.2.length + rows.length := by
    intro rows
    induction rows with
    | nil => intros; rfl
    | cons i rows ih =>
        intro s
        rw [List.foldl_cons, ih, execRow, List.length_append, List.length_singleton,
          List.length_cons]
        omega
  rw [triggerTimes, execRows, hfold, List.length_nil, List.length_range, Nat.zero_add]

/-- What a ready engine returns for a list of segments does not depend on the
order of the list or on the runs before. -/
theorem exec_fHits_perm {t' : Trigger Map} (h : t.Ready es) (h' : t'.Ready es)
    (hconfig : t.SameConfig t') {hbf hbf' : List HBFIndex} (hperm : hbf.Perm hbf') :
    (t'.exec copy hbf').fHits = (t.exec copy hbf).fHits := by
  have hmarked : ∀ time, Trigger.markPattern copy.tdcHit t.fTimeRegionSize t.fMarkLen es hbf' time =
      Trigger.markPattern copy.tdcHit t.fTimeRegionSize t.fMarkLen es hbf time := by
    intro time
    apply patternOf_congr
    intro i
    simp only [Trigger.Marked, hperm.mem_iff]
  rw [h.exec_fHits, h'.exec_fHits, hconfig.size, hconfig.markLen, hconfig.table]
  simp only [hmarked]

theorem triggerTimes_eq_map (h : t.Ready es) (fSplitMethod : Int) (inParts : List Bytes) :
    triggerTimes copy fSplitMethod t inParts =
      (List.range (minBlockCount (makeBlockMap fSplitMethod inParts))).map fun i =>
        (t.exec copy (buildHBF (makeBlockMap fSplitMethod inParts) inParts i)).fHits := by
  have hfold : ∀ (rows : List Nat) (s : Trigger Map × List (List (BitVec 32))),
      s.1.Ready es → t.SameConfig s.1 →
      (rows.foldl (execRow copy (makeBlockMap fSplitMethod inParts) inParts) s).2 =
        s.2 ++ rows.map fun i =>
          (t.exec copy (buildHBF (makeBlockMap fSplitMethod inParts) inParts i)).fHits := by
    intro rows
    induction rows with
    | nil => intros; simp
    | cons i rows ih =>
        intro s hready hconfig
        obtain ⟨hready', hconfig'⟩ := hready.exec copy
          (buildHBF (makeBlockMap fSplitMethod inParts) inParts i)
        rw [List.foldl_cons, ih _ hready' (hconfig.trans hconfig'), execRow,
          exec_fHits_perm h hready hconfig (List.Perm.refl _), List.map_cons, List.append_assoc,
          List.singleton_append]
  rw [triggerTimes, execRows, hfold _ (t, []) h ⟨rfl, rfl, rfl⟩, List.nil_append]

/-- The order does not matter to a frame in which every sub time frame has a
message. -/
theorem triggerTimes_perm_of_nonempty (h : t.Ready es) (fSplitMethod : Int)
    {tf : TimeFrame.Header} (hmagic : tf.magic = TimeFrame.MAGIC) {stfs stfs' : List SubFrame}
    (hperm : stfs.Perm stfs') (hfull : ∀ stf ∈ stfs, stf.messages ≠ []) :
    triggerTimes copy fSplitMethod t (frameParts tf stfs') =
      triggerTimes copy fSplitMethod t (frameParts tf stfs) := by
  by_cases hne : stfs = []
  · rw [hne] at hperm ⊢
    rw [← hperm.nil_eq]
  · have hne' : stfs' ≠ [] := by
      rintro rfl
      exact hne hperm.eq_nil
    have hfull' : ∀ stf ∈ stfs', stf.messages ≠ [] :=
      fun stf hstf => hfull stf (hperm.mem_iff.mpr hstf)
    have hcells : ∀ stfs imsg, (groupsFrom fSplitMethod 1 stfs).map
        (List.map (cell (frameParts tf stfs) imsg)) =
        stfs.map (SubFrame.cells fSplitMethod imsg) := fun stfs imsg =>
      @map_cell_groupsFrom fSplitMethod stfs (frameParts tf stfs) imsg [tf.encode]
        (Nat.succ_pos 0) rfl
    have hlengths : ∀ stfs, (groupsFrom fSplitMethod 1 stfs).map List.length =
        stfs.map fun stf => (stf.cells fSplitMethod 0).length := by
      intro stfs
      have hlen := congrArg (List.map List.length) (hcells stfs 0)
      simpa [Function.comp_def] using hlen
    have hcount : minBlockCount (groupsFrom fSplitMethod 1 stfs') =
        minBlockCount (groupsFrom fSplitMethod 1 stfs) := by
      apply minBlockCount_perm
      rw [hlengths, hlengths]
      exact (hperm.map _).symm
    rw [triggerTimes_eq_map h, triggerTimes_eq_map h,
      makeBlockMap_of_nonempty fSplitMethod hmagic hne hfull,
      makeBlockMap_of_nonempty fSplitMethod hmagic hne' hfull', hcount]
    apply List.map_congr_left
    intro i _
    rw [buildHBF_eq_rows fSplitMethod i (hcells stfs i),
      buildHBF_eq_rows fSplitMethod i (hcells stfs' i)]
    exact exec_fHits_perm h h ⟨rfl, rfl, rfl⟩ (hperm.flatMap_right _)

/-- Without any message there is no row. -/
theorem triggerTimes_of_empty (fSplitMethod : Int) {tf : TimeFrame.Header}
    (hmagic : tf.magic = TimeFrame.MAGIC) {stfs : List SubFrame}
    (hempty : ∀ stf ∈ stfs, stf.messages = []) :
    triggerTimes copy fSplitMethod t (frameParts tf stfs) = [] := by
  rw [← List.length_eq_zero_iff, length_triggerTimes]
  cases List.eq_nil_or_concat stfs with
  | inl heq =>
      subst heq
      rw [makeBlockMap_frameParts fSplitMethod hmagic]
      rfl
  | inr hex =>
      obtain ⟨rest, last, rfl⟩ := hex
      rw [List.concat_eq_append, minBlockCount_concat_eq_zero_iff fSplitMethod hmagic]
      exact hempty last (by simp)

private theorem perm_concat_of_mem {stfs : List SubFrame} {stf : SubFrame} (h : stf ∈ stfs) :
    ∃ rest, stfs.Perm (rest ++ [stf]) := by
  obtain ⟨before, after, rfl⟩ := List.append_of_mem h
  exact ⟨before ++ after, List.perm_middle.trans (List.perm_append_singleton _ _).symm⟩

/-- The order of the sub time frames does not matter to a frame exactly when all of
them or none of them are empty. -/
theorem triggerTimes_perm_iff_of_ready (h : t.Ready es) (fSplitMethod : Int)
    {tf : TimeFrame.Header} (hmagic : tf.magic = TimeFrame.MAGIC) (stfs : List SubFrame) :
    (∀ stfs', stfs.Perm stfs' → triggerTimes copy fSplitMethod t (frameParts tf stfs') =
        triggerTimes copy fSplitMethod t (frameParts tf stfs)) ↔
      (∀ stf ∈ stfs, stf.messages = []) ∨ ∀ stf ∈ stfs, stf.messages ≠ [] := by
  constructor
  · intro hsame
    by_contra hmixed
    rw [not_or] at hmixed
    obtain ⟨hnotEmpty, hnotFull⟩ := hmixed
    push Not at hnotEmpty hnotFull
    obtain ⟨full, hfull, hmessages⟩ := hnotEmpty
    obtain ⟨empty, hempty, hnone⟩ := hnotFull
    obtain ⟨restFull, hpermFull⟩ := perm_concat_of_mem hfull
    obtain ⟨restEmpty, hpermEmpty⟩ := perm_concat_of_mem hempty
    have hrows := congrArg List.length
      ((hsame _ hpermFull).trans (hsame _ hpermEmpty).symm)
    rw [length_triggerTimes, length_triggerTimes,
      (minBlockCount_concat_eq_zero_iff fSplitMethod hmagic restEmpty empty).mpr hnone,
      minBlockCount_concat_eq_zero_iff fSplitMethod hmagic] at hrows
    exact hmessages hrows
  · rintro (hempty | hfull) stfs' hperm
    · rw [triggerTimes_of_empty fSplitMethod hmagic hempty,
        triggerTimes_of_empty fSplitMethod hmagic
          fun stf hstf => hempty stf (hperm.mem_iff.mpr hstf)]
    · exact triggerTimes_perm_of_nonempty h fSplitMethod hmagic hperm hfull

end Rows

/-- In every run after registration the trigger times of a frame are the same for
every order of its sub time frames exactly when all of them or none are empty. -/
theorem triggerTimes_perm_iff (t : Trigger TriggerMap) {es : List Entry}
    (hlen : es.length ≤ 32) {size : BitVec 32} (hpos : 0 < size.toNat)
    (contents : List (BitVec 32)) (fSplitMethod : Int) {tf : TimeFrame.Header}
    (hmagic : tf.magic = TimeFrame.MAGIC) (stfs : List SubFrame) :
    ∃ t', (t.setTimeRegion size contents).register es = .ok t' ∧
      ∀ earlier : List (List HBFIndex),
        let trg := earlier.foldl (Trigger.exec triggerCopy) t'
        (∀ stfs', stfs.Perm stfs' →
            triggerTimes triggerCopy fSplitMethod trg (frameParts tf stfs') =
              triggerTimes triggerCopy fSplitMethod trg (frameParts tf stfs)) ↔
          (∀ stf ∈ stfs, stf.messages = []) ∨ ∀ stf ∈ stfs, stf.messages ≠ [] := by
  obtain ⟨t', hreg, hready, -⟩ := Trigger.register_ready t hlen hpos contents
  refine ⟨t', hreg, ?_⟩
  intro earlier
  exact triggerTimes_perm_iff_of_ready (hready.foldl_exec triggerCopy earlier).1 fSplitMethod
    hmagic stfs

/-- A sub time frame with one heartbeat message of two delimiter words. -/
def oneHeartbeat : SubFrame where
  header := { femType := SubTimeFrame.TDC64H_V3, femId := 0x20 }
  magic := rfl
  messages := [{
    bytes := putWords [0x7000000000000000#64, 0x7800000000000000#64]
    word := by decide
    notTimeFrame := by decide
    notSubTimeFrame := by decide }]

def noHeartbeat : SubFrame where
  header := { femType := SubTimeFrame.TDC64H_V3, femId := 0x21 }
  magic := rfl
  messages := []

/-- Two full sub time frames. -/
theorem triggerTimes_perm_iff_two_full :
    ∃ t', (Trigger.setTimeRegion ({ fTMap := {} } : Trigger TriggerMap)
          (BitVec.ofNat 32 131072) []).register [⟨0x20, 0, 0⟩] = .ok t' ∧
      ∀ earlier : List (List HBFIndex),
        let trg := earlier.foldl (Trigger.exec triggerCopy) t'
        (∀ stfs', [oneHeartbeat, oneHeartbeat].Perm stfs' →
            triggerTimes triggerCopy 2 trg (frameParts {} stfs') =
              triggerTimes triggerCopy 2 trg (frameParts {} [oneHeartbeat, oneHeartbeat])) ↔
          (∀ stf ∈ [oneHeartbeat, oneHeartbeat], stf.messages = []) ∨
            ∀ stf ∈ [oneHeartbeat, oneHeartbeat], stf.messages ≠ [] :=
  triggerTimes_perm_iff { fTMap := {} } (by decide) (by decide) [] 2 rfl
    [oneHeartbeat, oneHeartbeat]

/-- An empty sub time frame behind a full one takes away the row that it leaves
when it comes first. -/
theorem empty_subFrame_order_matters :
    ∃ t', (Trigger.setTimeRegion ({ fTMap := {} } : Trigger TriggerMap)
          (BitVec.ofNat 32 131072) []).register [⟨0x20, 0, 0⟩] = .ok t' ∧
      ∃ stfs', [oneHeartbeat, noHeartbeat].Perm stfs' ∧
        triggerTimes triggerCopy 2 t' (frameParts {} stfs') ≠
          triggerTimes triggerCopy 2 t' (frameParts {} [oneHeartbeat, noHeartbeat]) := by
  refine ⟨_, rfl, [noHeartbeat, oneHeartbeat], List.Perm.swap _ _ _, fun hsame => ?_⟩
  have hrows := congrArg List.length hsame
  rw [length_triggerTimes, length_triggerTimes] at hrows
  revert hrows
  decide

end LogicFilter
end Userworks
