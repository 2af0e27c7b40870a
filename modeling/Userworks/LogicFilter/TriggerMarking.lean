import Userworks.Lib.Paint
import Userworks.LogicFilter.Trigger
import Mathlib.Data.List.Flatten

/-!
The time region after marking, described by the hits alone.

Registration keeps the three maps of a module aligned and gives every entry its
own bit. Marking only ORs entry bits into cells, so the region is a painting
whose strokes do not depend on what was marked before, and a bit of a cell says
whether some hit of its entry covers that time. Both copies of the engine are
covered; the look-up table is not looked at.
-/
namespace Userworks

/-- One registered signal. -/
structure Entry where
  module : BitVec 32
  ch : Int
  offset : Int
  deriving DecidableEq

variable {Map : Type}

open Classical in
/-- The 32-bit pattern with bit `i` set where the predicate holds. -/
noncomputable def patternOf (p : Nat → Prop) : BitVec 32 :=
  (BitVec.ofBoolListLE ((List.range 32).map fun i => decide (p i))).setWidth 32

theorem getLsbD_patternOf {p : Nat → Prop} {i : Nat} (hi : i < 32) :
    (patternOf p).getLsbD i = true ↔ p i := by
  rw [patternOf, BitVec.getLsbD_setWidth, BitVec.getLsbD_ofBoolListLE,
    List.getD_eq_getElem?_getD]
  simp [hi]

theorem patternOf_congr {p q : Nat → Prop} (h : ∀ i, p i ↔ q i) : patternOf p = patternOf q :=
  congrArg patternOf (funext fun i => propext (h i))

namespace Trigger

/-- `ClearEntry` followed by one `Entry` call for each signal. -/
def register (t : Trigger Map) (es : List Entry) : Except Fault (Trigger Map) :=
  es.foldlM (fun t e => t.entry e.module e.ch e.offset) t.clearEntry

/-- The signals of a module with their numbers. -/
def slots (es : List Entry) (fem : BitVec 32) : List (Entry × Nat) :=
  es.zipIdx.filter fun slot => slot.1.module = fem

/-- The maps of the engine hold the registered signals, position by position. -/
structure Aligned (t : Trigger Map) (es : List Entry) : Prop where
  ch : ∀ fem, t.fEntryCh fem = (slots es fem).map fun slot => slot.1.ch
  delay : ∀ fem, t.fEntryChDelay fem = (slots es fem).map fun slot => slot.1.offset
  bit : ∀ fem, t.fEntryChBit fem = (slots es fem).map fun slot => 1#32 <<< slot.2
  counts : t.fEntryCounts = es.length

/-- The part of the engine that neither registration nor a run changes. -/
structure SameConfig (t t' : Trigger Map) : Prop where
  size : t'.fTimeRegionSize = t.fTimeRegionSize
  markLen : t'.fMarkLen = t.fMarkLen
  table : t'.fTMap = t.fTMap

theorem SameConfig.trans {t t' t'' : Trigger Map} (h : t.SameConfig t')
    (h' : t'.SameConfig t'') : t.SameConfig t'' :=
  ⟨h'.size.trans h.size, h'.markLen.trans h.markLen, h'.table.trans h.table⟩

/-- An engine with an allocated region and at most 32 registered signals. -/
structure Ready (t : Trigger Map) (es : List Entry) : Prop where
  aligned : t.Aligned es
  room : es.length ≤ 32
  alloc : t.fTimeRegion.length = t.fTimeRegionSize.toNat
  pos : 0 < t.fTimeRegionSize.toNat

theorem slots_concat (es : List Entry) (e : Entry) (fem : BitVec 32) :
    slots (es ++ [e]) fem =
      if fem = e.module then slots es fem ++ [(e, es.length)] else slots es fem := by
  rw [slots, List.zipIdx_append, List.filter_append]
  by_cases h : fem = e.module
  · simp [slots, h]
  · simp [slots, h, Ne.symm h]

theorem aligned_clearEntry (t : Trigger Map) : t.clearEntry.Aligned [] :=
  ⟨fun _ => rfl, fun _ => rfl, fun _ => rfl, rfl⟩

/-- One `Entry` call keeps the maps aligned while a bit is left for it. -/
theorem Aligned.entry {t : Trigger Map} {es : List Entry} (h : t.Aligned es) (e : Entry)
    (hroom : es.length < 32) :
    ∃ t', t.entry e.module e.ch e.offset = .ok t' ∧ t'.Aligned (es ++ [e]) ∧
      t.SameConfig t' ∧ t'.fTimeRegion = t.fTimeRegion := by
  have hcount : t.fEntryCounts + 1 ≤ 32 := by rw [h.counts]; omega
  refine ⟨_, if_pos hcount, ⟨?_, ?_, ?_, ?_⟩, ⟨rfl, rfl, rfl⟩, rfl⟩
  · intro fem
    rw [slots_concat]
    by_cases hf : fem = e.module <;> simp [ModuleMap.emplaceBack, hf, h.ch]
  · intro fem
    rw [slots_concat]
    by_cases hf : fem = e.module <;> simp [ModuleMap.emplaceBack, hf, h.delay]
  · intro fem
    rw [slots_concat]
    by_cases hf : fem = e.module <;> simp [ModuleMap.emplaceBack, hf, h.bit, h.counts]
  · simp [h.counts]

theorem Aligned.foldlM {t : Trigger Map} {before : List Entry} (h : t.Aligned before)
    (es : List Entry) (hroom : before.length + es.length ≤ 32) :
    ∃ t', es.foldlM (fun t e => t.entry e.module e.ch e.offset) t = .ok t' ∧
      t'.Aligned (before ++ es) ∧ t.SameConfig t' ∧ t'.fTimeRegion = t.fTimeRegion := by
  induction es generalizing t before with
  | nil => exact ⟨t, rfl, by simpa using h, ⟨rfl, rfl, rfl⟩, rfl⟩
  | cons e es ih =>
      rw [List.length_cons] at hroom
      obtain ⟨t₁, hentry, haligned, hconfig, hregion⟩ := h.entry e (by omega)
      obtain ⟨t₂, hrest, haligned₂, hconfig₂, hregion₂⟩ :=
        ih haligned (by simp only [List.length_append, List.length_singleton]; omega)
      refine ⟨t₂, ?_, by simpa using haligned₂, hconfig.trans hconfig₂, hregion₂.trans hregion⟩
      rw [List.foldlM_cons, hentry]
      exact hrest

theorem length_setTimeRegion (t : Trigger Map) (size : BitVec 32)
    (contents : List (BitVec 32)) :
    (t.setTimeRegion size contents).fTimeRegion.length = size.toNat := by
  simp only [setTimeRegion, List.length_append, List.length_take, List.length_replicate]
  omega

/-- Registration of up to 32 signals on an allocated region makes the engine ready
and changes nothing else. -/
theorem register_ready (t : Trigger Map) {es : List Entry} (hlen : es.length ≤ 32)
    {size : BitVec 32} (hpos : 0 < size.toNat) (contents : List (BitVec 32)) :
    ∃ t', (t.setTimeRegion size contents).register es = .ok t' ∧ t'.Ready es ∧
      (t.setTimeRegion size contents).SameConfig t' := by
  obtain ⟨t', hreg, haligned, hconfig, hregion⟩ :=
    (t.setTimeRegion size contents).aligned_clearEntry.foldlM es (by simpa using hlen)
  refine ⟨t', hreg, ⟨by simpa using haligned, hlen, ?_, ?_⟩,
    ⟨hconfig.size, hconfig.markLen, hconfig.table⟩⟩
  · rw [hregion, hconfig.size]
    exact length_setTimeRegion t size contents
  · rw [hconfig.size]
    exact hpos

/-! Marking as painting. -/

def repaint (t : Trigger Map) (strokes : List (Nat × BitVec 32)) : Trigger Map :=
  { t with fTimeRegion := paint t.fTimeRegion strokes }

@[simp] theorem repaint_repaint (t : Trigger Map) (as bs : List (Nat × BitVec 32)) :
    (t.repaint as).repaint bs = t.repaint (as ++ bs) := by
  simp [repaint, paint_append]

/-- A loop whose body paints strokes that do not depend on the region paints the
strokes of all its rounds. -/
theorem foldl_repaint {α : Type} (t : Trigger Map) (body : Trigger Map → α → Trigger Map)
    (strokes : α → List (Nat × BitVec 32))
    (h : ∀ done x, body (t.repaint done) x = (t.repaint done).repaint (strokes x))
    (xs : List α) : xs.foldl body t = t.repaint (xs.flatMap strokes) := by
  have hall : ∀ done, xs.foldl body (t.repaint done) =
      t.repaint (done ++ xs.flatMap strokes) := by
    induction xs with
    | nil => intro done; simp
    | cons x xs ih =>
        intro done
        rw [List.foldl_cons, h, repaint_repaint, ih, List.flatMap_cons, List.append_assoc]
  exact hall []

/-- The strokes of one hit: its bit in every cell of the window around it. -/
def hitStrokes (size : BitVec 32) (markLen : Int) (hit markbit : BitVec 32) :
    List (Nat × BitVec 32) :=
  if hit < size - BitVec.ofInt 32 (markLen.tdiv 2) then
    (((markOffsets markLen).map fun k => hit + BitVec.ofInt 32 k).filter (· < size)).map
      fun time => (time.toNat, markbit)
  else []

def wordStrokes (tdcHit : BitVec 32 → Word → Option (Int × Int)) (size : BitVec 32)
    (markLen : Int) (type : BitVec 32) (ch delay : Int) (markbit : BitVec 32) (w : Word) :
    List (Nat × BitVec 32) :=
  match tdcHit type w with
  | some (tdcCh, tdc4n) =>
      if tdcCh = ch then hitStrokes size markLen (BitVec.ofInt 32 (tdc4n + delay)) markbit
      else []
  | none => []

theorem markHit_eq_repaint (t : Trigger Map) (hit markbit : BitVec 32) :
    t.markHit hit markbit =
      t.repaint (hitStrokes t.fTimeRegionSize t.fMarkLen hit markbit) := by
  rw [markHit, hitStrokes]
  split
  · simp only [repaint, paint, List.foldl_map, List.foldl_filter]
    simp only [decide_eq_true_eq]
  · rfl

theorem markChannel_eq_repaint (tdcHit : BitVec 32 → Word → Option (Int × Int))
    (t : Trigger Map) (data : Bytes) (type : BitVec 32) (ch delay : Int)
    (markbit : BitVec 32) :
    t.markChannel tdcHit data type ch delay markbit =
      t.repaint ((words data).flatMap
        (wordStrokes tdcHit t.fTimeRegionSize t.fMarkLen type ch delay markbit)) := by
  apply foldl_repaint
  intro done w
  cases htdc : tdcHit type w with
  | none =>
      simp only [wordStrokes, htdc, List.append_nil, repaint_repaint]
  | some hit =>
      obtain ⟨tdcCh, tdc4n⟩ := hit
      by_cases hch : tdcCh = ch
      · simp only [wordStrokes, htdc, hch, if_true]
        exact markHit_eq_repaint _ _ _
      · simp only [wordStrokes, htdc, hch, if_false, List.append_nil, repaint_repaint]

/-- The strokes of one segment. -/
def segStrokes (tdcHit : BitVec 32 → Word → Option (Int × Int)) (t : Trigger Map)
    (seg : HBFIndex) : List (Nat × BitVec 32) :=
  (List.range (t.fEntryCh seg.femId).length).flatMap fun i =>
    (words seg.data).flatMap
      (wordStrokes tdcHit t.fTimeRegionSize t.fMarkLen seg.femType
        ((t.fEntryCh seg.femId).getD i 0) ((t.fEntryChDelay seg.femId).getD i 0)
        ((t.fEntryChBit seg.femId).getD i 0))

theorem mark_eq_repaint (copy : TriggerCopy Map) (t : Trigger Map) (seg : HBFIndex) :
    t.mark copy seg.data seg.femId seg.femType = t.repaint (segStrokes copy.tdcHit t seg) := by
  apply foldl_repaint
  intro done i
  exact markChannel_eq_repaint _ _ _ _ _ _ _

theorem foldl_mark_eq_repaint (copy : TriggerCopy Map) (t : Trigger Map)
    (hbf : List HBFIndex) :
    hbf.foldl (fun t seg => t.mark copy seg.data seg.femId seg.femType) t =
      t.repaint (hbf.flatMap (segStrokes copy.tdcHit t)) := by
  apply foldl_repaint
  intro done seg
  exact mark_eq_repaint copy _ seg

/-- With aligned maps the loop over the positions is a loop over the signals of
the module. -/
theorem Aligned.segStrokes {t : Trigger Map} {es : List Entry} (h : t.Aligned es)
    (tdcHit : BitVec 32 → Word → Option (Int × Int)) (seg : HBFIndex) :
    t.segStrokes tdcHit seg = (slots es seg.femId).flatMap fun slot =>
      (words seg.data).flatMap
        (wordStrokes tdcHit t.fTimeRegionSize t.fMarkLen seg.femType slot.1.ch slot.1.offset
          (1#32 <<< slot.2)) := by
  rw [Trigger.segStrokes, h.ch, h.delay, h.bit, List.length_map]
  generalize slots es seg.femId = l
  have hl : l = (List.range l.length).map fun i => l.getD i (⟨0, 0, 0⟩, 0) := by
    apply List.ext_getElem
    · simp
    · intro i hi _
      simp [List.getD_eq_getElem?_getD, List.getElem?_eq_getElem hi]
  conv_rhs => rw [hl, List.flatMap_map]
  apply List.flatMap_congr
  intro i hi
  rw [List.mem_range] at hi
  simp [List.getD_eq_getElem?_getD, List.getElem?_eq_getElem hi]

theorem mem_slots {es : List Entry} {fem : BitVec 32} {slot : Entry × Nat} :
    slot ∈ slots es fem ↔ es[slot.2]? = some slot.1 ∧ slot.1.module = fem := by
  simp [slots, List.mem_zipIdx_iff_getElem?]

theorem mem_markOffsets {markLen k : Int} :
    k ∈ markOffsets markLen ↔ -markLen.tdiv 2 ≤ k ∧ k ≤ markLen.tdiv 2 := by
  simp only [markOffsets, List.mem_map, List.mem_range]
  constructor
  · rintro ⟨j, hj, rfl⟩
    omega
  · rintro ⟨hlow, hhigh⟩
    exact ⟨(k + markLen.tdiv 2).toNat, by omega, by omega⟩

/-- The window of a hit, as the marking loop computes it in `uint32_t`. -/
def Covered (size : BitVec 32) (markLen : Int) (hit : BitVec 32) (time : Nat) : Prop :=
  hit < size - BitVec.ofInt 32 (markLen.tdiv 2) ∧
    ∃ k : Int, -markLen.tdiv 2 ≤ k ∧ k ≤ markLen.tdiv 2 ∧
      hit + BitVec.ofInt 32 k < size ∧ (hit + BitVec.ofInt 32 k).toNat = time

theorem mem_hitStrokes {size : BitVec 32} {markLen : Int} {hit markbit : BitVec 32}
    {stroke : Nat × BitVec 32} :
    stroke ∈ hitStrokes size markLen hit markbit ↔
      Covered size markLen hit stroke.1 ∧ stroke.2 = markbit := by
  rw [hitStrokes, Covered]
  split
  · rename_i hguard
    simp only [List.mem_map, List.mem_filter, mem_markOffsets, decide_eq_true_eq, hguard,
      true_and]
    constructor
    · rintro ⟨_, ⟨⟨k, ⟨hlow, hhigh⟩, rfl⟩, hlt⟩, rfl⟩
      exact ⟨⟨k, hlow, hhigh, hlt, rfl⟩, rfl⟩
    · rintro ⟨⟨k, hlow, hhigh, hlt, htime⟩, hbit⟩
      exact ⟨_, ⟨⟨k, ⟨hlow, hhigh⟩, rfl⟩, hlt⟩, Prod.ext htime hbit.symm⟩
  · rename_i hguard
    simp [hguard]

theorem mem_wordStrokes {tdcHit : BitVec 32 → Word → Option (Int × Int)} {size : BitVec 32}
    {markLen : Int} {type : BitVec 32} {ch delay : Int} {markbit : BitVec 32} {w : Word}
    {stroke : Nat × BitVec 32} :
    stroke ∈ wordStrokes tdcHit size markLen type ch delay markbit w ↔
      ∃ tdc4n, tdcHit type w = some (ch, tdc4n) ∧
        Covered size markLen (BitVec.ofInt 32 (tdc4n + delay)) stroke.1 ∧
        stroke.2 = markbit := by
  cases htdc : tdcHit type w with
  | none =>
      simp [wordStrokes, htdc]
  | some hit =>
      obtain ⟨tdcCh, tdc4n⟩ := hit
      by_cases hch : tdcCh = ch
      · simp only [wordStrokes, htdc, hch, if_true, mem_hitStrokes, Option.some.injEq,
          Prod.mk.injEq, true_and]
        constructor
        · exact fun h => ⟨tdc4n, rfl, h⟩
        · rintro ⟨_, rfl, h⟩
          exact h
      · simp [wordStrokes, htdc, hch]

/-- Signal `i` is marked at a time: some word of one of its module's segments is
a hit of its channel whose window covers the time. -/
def Marked (tdcHit : BitVec 32 → Word → Option (Int × Int)) (size : BitVec 32)
    (markLen : Int) (es : List Entry) (hbf : List HBFIndex) (time i : Nat) : Prop :=
  ∃ e, es[i]? = some e ∧ ∃ seg ∈ hbf, seg.femId = e.module ∧ ∃ w ∈ words seg.data,
    ∃ tdc4n, tdcHit seg.femType w = some (e.ch, tdc4n) ∧
      Covered size markLen (BitVec.ofInt 32 (tdc4n + e.offset)) time

/-- The pattern whose bits are the marked signals. -/
noncomputable def markPattern (tdcHit : BitVec 32 → Word → Option (Int × Int))
    (size : BitVec 32) (markLen : Int) (es : List Entry) (hbf : List HBFIndex)
    (time : Nat) : BitVec 32 :=
  patternOf (Marked tdcHit size markLen es hbf time)

theorem getLsbD_entryBit {n i : Nat} (hn : n < 32) :
    (1#32 <<< n).getLsbD i = true ↔ n = i := by
  rw [BitVec.getLsbD_shiftLeft, BitVec.getLsbD_one]
  simp only [Bool.and_eq_true, decide_eq_true_eq, Bool.not_eq_true', decide_eq_false_iff_not]
  omega

/-- The region holds the mark pattern of every time. -/
theorem Ready.region {copy : TriggerCopy Map} {t : Trigger Map} {es : List Entry}
    (h : t.Ready es) (hbf : List HBFIndex) {time : Nat} (htime : time < t.fTimeRegionSize.toNat) :
    (hbf.foldl (fun t seg => t.mark copy seg.data seg.femId seg.femType)
        t.cleanUpTimeRegion).fTimeRegion.getD time 0 =
      markPattern copy.tdcHit t.fTimeRegionSize t.fMarkLen es hbf time := by
  have hclean : t.cleanUpTimeRegion.Aligned es :=
    ⟨h.aligned.ch, h.aligned.delay, h.aligned.bit, h.aligned.counts⟩
  have hlen := h.room
  have halloc := h.alloc
  have hzero : ∀ i, (t.cleanUpTimeRegion.fTimeRegion.getD time 0).getLsbD i = false := by
    intro i
    rw [cleanUpTimeRegion, List.getD_eq_getElem?_getD, List.getElem?_map,
      List.getElem?_eq_getElem (by omega)]
    simp
  have hsize : time < t.cleanUpTimeRegion.fTimeRegion.length := by
    rw [cleanUpTimeRegion, List.length_map]; omega
  rw [foldl_mark_eq_repaint, repaint]
  apply BitVec.eq_of_getLsbD_eq
  intro i hi
  rw [Bool.eq_iff_iff, getLsbD_paint _ _ _ _ hsize, markPattern,
    getLsbD_patternOf hi, hzero]
  simp only [Bool.false_eq_true, false_or, List.mem_flatMap, hclean.segStrokes, mem_slots,
    mem_wordStrokes]
  constructor
  · rintro ⟨stroke, ⟨seg, hseg, slot, ⟨hslot, hmod⟩, w, hw, tdc4n, hhit, hcov, hmark⟩, htm, hbit⟩
    have hroom : slot.2 < 32 := by
      have := (List.getElem?_eq_some_iff.mp hslot).1
      omega
    rw [hmark, getLsbD_entryBit hroom] at hbit
    subst hbit htm
    exact ⟨slot.1, hslot, seg, hseg, hmod.symm, w, hw, tdc4n, hhit, hcov⟩
  · rintro ⟨e, he, seg, hseg, hmod, w, hw, tdc4n, hhit, hcov⟩
    exact ⟨(time, 1#32 <<< i), ⟨seg, hseg, (e, i), ⟨he, hmod.symm⟩, w, hw, tdc4n, hhit, hcov, rfl⟩,
      rfl, (getLsbD_entryBit hi).mpr rfl⟩

/-- The size of the region is left alone by the marking, and so is the table. -/
private theorem foldl_mark_config (copy : TriggerCopy Map) (t : Trigger Map)
    (hbf : List HBFIndex) :
    t.SameConfig (hbf.foldl (fun t seg => t.mark copy seg.data seg.femId seg.femType)
      t.cleanUpTimeRegion) := by
  rw [foldl_mark_eq_repaint]
  exact ⟨rfl, rfl, rfl⟩

theorem toNat_size_sub_one {size : BitVec 32} (hpos : 0 < size.toNat) :
    (size - 1).toNat = size.toNat - 1 := by
  rw [BitVec.toNat_sub_of_le (by rw [BitVec.le_def]; exact hpos)]
  rfl

/-- A run of the engine finds the rising edges of the table value of the mark
pattern; the region it starts from does not matter. -/
theorem Ready.exec_fHits {copy : TriggerCopy Map} {t : Trigger Map} {es : List Entry}
    (h : t.Ready es) (hbf : List HBFIndex) :
    (t.exec copy hbf).fHits =
      (risingEdges (fun time => copy.lookUp t.fTMap
        (markPattern copy.tdcHit t.fTimeRegionSize t.fMarkLen es hbf time))
        (t.fTimeRegionSize.toNat - 1)).map (BitVec.ofNat 32) := by
  have hconfig := foldl_mark_config copy t hbf
  have hpos := h.pos
  rw [exec, scan]
  simp only [hconfig.size, hconfig.table, toNat_size_sub_one hpos]
  congr 1
  apply risingEdges_congr
  intro time htime
  rw [h.region hbf (by omega)]

/-- The hits as numbers. -/
theorem Ready.exec_hits_toNat {copy : TriggerCopy Map} {t : Trigger Map} {es : List Entry}
    (h : t.Ready es) (hbf : List HBFIndex) :
    (t.exec copy hbf).fHits.map BitVec.toNat =
      risingEdges (fun time => copy.lookUp t.fTMap
        (markPattern copy.tdcHit t.fTimeRegionSize t.fMarkLen es hbf time))
        (t.fTimeRegionSize.toNat - 1) := by
  rw [h.exec_fHits, List.map_map]
  conv_rhs => rw [← List.map_id (risingEdges _ _)]
  apply List.map_congr_left
  intro time hmem
  have hlast := (mem_risingEdges.mp hmem).2.1
  have hsize := t.fTimeRegionSize.isLt
  simp only [Function.comp_apply, BitVec.toNat_ofNat, id_eq]
  omega

/-- A run leaves the registration and the configuration alone. -/
theorem Ready.exec (copy : TriggerCopy Map) {t : Trigger Map} {es : List Entry}
    (h : t.Ready es) (hbf : List HBFIndex) :
    (t.exec copy hbf).Ready es ∧ t.SameConfig (t.exec copy hbf) := by
  rw [Trigger.exec, foldl_mark_eq_repaint]
  refine ⟨⟨⟨h.aligned.ch, h.aligned.delay, h.aligned.bit, h.aligned.counts⟩, h.room, ?_, h.pos⟩,
    ⟨rfl, rfl, rfl⟩⟩
  simpa [scan, repaint, cleanUpTimeRegion] using h.alloc

/-- So do all runs together. -/
theorem Ready.foldl_exec (copy : TriggerCopy Map) {t : Trigger Map} {es : List Entry}
    (h : t.Ready es) (earlier : List (List HBFIndex)) :
    (earlier.foldl (Trigger.exec copy) t).Ready es ∧
      t.SameConfig (earlier.foldl (Trigger.exec copy) t) := by
  induction earlier generalizing t with
  | nil => exact ⟨h, rfl, rfl, rfl⟩
  | cons hbf earlier ih =>
      obtain ⟨hready, hconfig⟩ := h.exec copy hbf
      obtain ⟨hready', hconfig'⟩ := ih hready
      exact ⟨hready', hconfig.trans hconfig'⟩

end Trigger
end Userworks
