import Userworks.Exam6.SuppressedFrames
import Userworks.Exam6.TriggeredRows

/-!
What the filter of exam6 sends for a time frame when data is suppressed and heartbeats
are kept. Of a sub time frame the data messages are left out that stand in a searched
row in which the formula never turns true, and if nothing is left its header goes as
well. Everything else goes on in the order in which it came.
-/
namespace Userworks
namespace Exam6
namespace FltTrig

open LogicFilter (HeartbeatMessage SubFrame frameParts)
open TimeFrameBuilder (totalLength)

/-- The least number of rows of a group. -/
def searchedRows (fSplitMethod : Int) (stfs : List SubFrame) : Nat :=
  ((grouped stfs).map (rowCount fSplitMethod)).min?.getD 0

section Meaning

variable (s : Selection) (fSplitMethod : Int) (stfs : List SubFrame)

/-- The times at which the formula turns true in a row. -/
noncomputable def rowTimes (i : Nat) : List Nat := s.times (rowSegments fSplitMethod stfs i)

/-- A message of a sub time frame that is not sent, with its row. -/
def LeftOut (stf : SubFrame) (part : HeartbeatMessage × Nat) : Prop :=
  isHeartbeat stf.header.femType part.1 = false ∧ stf.header.femType ≠ SubTimeFrame.NULDEV ∧
    part.2 < searchedRows fSplitMethod stfs ∧ rowTimes s fSplitMethod stfs part.2 = []

open Classical in
/-- The messages of a sub time frame that are sent. -/
noncomputable def keptOf (stf : SubFrame) : List Bytes :=
  ((stf.messages.zip (rows fSplitMethod stf)).filter fun part =>
    ¬ LeftOut s fSplitMethod stfs stf part).map fun part => part.1.bytes

/-- The header counts the messages behind it. -/
def headed (header : SubTimeFrame.Header) (own : List Bytes) : List Bytes :=
  if own = [] then []
  else
    { header with
      length := BitVec.ofNat 32 (SubTimeFrame.Header.size + totalLength own)
      numMessages := BitVec.ofNat 32 own.length }.encode :: own

/-- What is sent of the sub time frames. -/
noncomputable def sentStfs : List Bytes :=
  stfs.flatMap fun stf => headed stf.header (keptOf s fSplitMethod stfs stf)

/-- What is sent for a time frame. -/
noncomputable def sentFrame (f : FltTrig) (now : Clock) (tf : TimeFrame.Header) : List Bytes :=
  let sent := sentStfs s f.fSplitMethod stfs
  let tf_len := BitVec.ofNat 32 (TimeFrame.Header.size + totalLength sent)
  let hits := (List.range (searchedRows f.fSplitMethod stfs)).map fun i =>
    (rowTimes s f.fSplitMethod stfs i).length
  (f.fltHeader now tf_len hits.sum).encode :: { tf with length := tf_len }.encode :: sent

end Meaning

theorem grouped_ne_nil {stfs : List SubFrame} (h : stfs ≠ []) : grouped stfs ≠ [] := by
  induction stfs with
  | nil => exact absurd rfl h
  | cons stf stfs ih =>
      cases stfs with
      | nil => exact List.cons_ne_nil stf []
      | cons next stfs => exact List.append_ne_nil_of_right_ne_nil _ (ih (List.cons_ne_nil _ _))

theorem searched_iff (fSplitMethod : Int) {stfs : List SubFrame} (hne : stfs ≠ []) (i : Nat) :
    Searched fSplitMethod stfs i ↔ i < searchedRows fSplitMethod stfs := by
  have hmap : (grouped stfs).map (rowCount fSplitMethod) ≠ [] :=
    fun h => grouped_ne_nil hne (List.map_eq_nil_iff.mp h)
  rw [Searched, searchedRows]
  cases hmin : ((grouped stfs).map (rowCount fSplitMethod)).min? with
  | none => exact absurd (List.min?_eq_none_iff.mp hmin) hmap
  | some n =>
      obtain ⟨hmem, hleast⟩ := List.min?_eq_some_iff.mp hmin
      rw [Option.getD_some]
      constructor
      · intro h
        obtain ⟨stf, hstf, rfl⟩ := List.mem_map.mp hmem
        exact h stf hstf
      · intro h stf hstf
        exact Nat.lt_of_lt_of_le h (hleast _ (List.mem_map_of_mem hstf))

theorem minBlockCount_frameParts (fSplitMethod : Int) {tf : TimeFrame.Header}
    (hmagic : tf.magic = TimeFrame.MAGIC) {stfs : List SubFrame} (hne : stfs ≠ []) :
    minBlockCount (makeBlockMap fSplitMethod (frameParts tf stfs)) =
      searchedRows fSplitMethod stfs := by
  apply eq_of_forall_lt_iff
  intro i
  exact (lt_minBlockCount_frameParts_iff fSplitMethod hmagic hne i).trans (searched_iff _ hne i)

/-! ### Flags and messages -/

theorem flagParts_append (ks : List Nat) (base : Nat) (as bs : List Bytes) :
    flagParts ks base (as ++ bs) = flagParts ks base as ++ flagParts ks (base + as.length) bs := by
  rw [flagParts, List.zipIdx_append, List.map_append]
  rfl

theorem flatMap_subFramesFrom {α : Type} (base : Nat) (stfs : List SubFrame)
    (g : SubFrame → List α) :
    ((subFramesFrom base stfs).flatMap fun p => g p.2) = stfs.flatMap g := by
  induction stfs generalizing base with
  | nil => rfl
  | cons stf stfs ih => rw [subFramesFrom, List.flatMap_cons, ih, List.flatMap_cons]

/-- The messages whose flags are not cleared. -/
def unclearedOf (ks : List Nat) (base : Nat) (messages : List HeartbeatMessage) : List Bytes :=
  ((messages.zipIdx base).filter fun part => part.2 ∉ ks).map fun part => part.1.bytes

theorem unclearedOf_cons (ks : List Nat) (base : Nat) (msg : HeartbeatMessage)
    (messages : List HeartbeatMessage) :
    unclearedOf ks base (msg :: messages) =
      (if base ∉ ks then [msg.bytes] else []) ++ unclearedOf ks (base + 1) messages := by
  rw [unclearedOf, List.zipIdx_cons, List.filter_cons]
  simp only [decide_eq_true_eq]
  split <;> rfl

section Messages

variable (ks : List Nat) (base : Nat) (messages : List HeartbeatMessage)
  (rest : List (Bytes × Bool))

theorem sentMessages_messages :
    sentMessages (flagParts ks base (messages.map HeartbeatMessage.bytes) ++ rest) =
      unclearedOf ks base messages ++ sentMessages rest := by
  induction messages generalizing base with
  | nil => rfl
  | cons msg messages ih =>
      rw [List.map_cons, flagParts, List.zipIdx_cons, List.map_cons, ← flagParts, List.cons_append,
        sentMessages_message (isStf_message msg), ih, unclearedOf_cons, List.append_assoc]
      simp only [decide_eq_true_eq]

theorem contents_messages (hrest : contents rest = []) :
    contents (flagParts ks base (messages.map HeartbeatMessage.bytes) ++ rest) =
      unclearedOf ks base messages := by
  induction messages generalizing base with
  | nil => exact hrest
  | cons msg messages ih =>
      rw [List.map_cons, flagParts, List.zipIdx_cons, List.map_cons, ← flagParts, List.cons_append,
        contents_message (isStf_message msg), ih, unclearedOf_cons]
      simp only [decide_eq_true_eq]

end Messages

theorem isStf_header (stf : SubFrame) : isStf stf.header.encode = true := by
  simp [isStf, stf.header.field_encode, stf.magic]

theorem contents_flagParts (ks : List Nat) (base : Nat) (stfs : List SubFrame) :
    contents (flagParts ks base (stfs.flatMap SubFrame.parts)) = [] := by
  cases stfs with
  | nil => rfl
  | cons stf stfs =>
      rw [List.flatMap_cons, SubFrame.parts, List.cons_append, flagParts, List.zipIdx_cons,
        List.map_cons]
      exact contents_header (isStf_header stf) _ _

/-- A header and its messages as they are written into the frame. -/
theorem announce_eq_headed (header : SubTimeFrame.Header) {own : List Bytes}
    (hpos : ∀ msg ∈ own, 0 < msg.length) (hsmall : totalLength own < 2 ^ 32) :
    (if BitVec.ofNat 32 (totalLength own) = 0 then [] else [announce header.encode own]) ++ own =
      headed header own := by
  rw [headed]
  cases own with
  | nil => rfl
  | cons msg own =>
      have hlength := hpos msg List.mem_cons_self
      have hnonzero : BitVec.ofNat 32 (totalLength (msg :: own)) ≠ 0 := by
        intro hzero
        have hnat := congrArg BitVec.toNat hzero
        rw [BitVec.toNat_ofNat, Nat.mod_eq_of_lt hsmall, totalLength_cons] at hnat
        simp only [BitVec.ofNat_eq_ofNat, BitVec.toNat_ofNat, Nat.zero_mod] at hnat
        omega
      rw [if_neg hnonzero, if_neg (List.cons_ne_nil msg own), announce, header.decode_encode_self,
        List.drop_of_length_le (Nat.le_of_eq header.length_encode), List.append_nil,
        ← BitVec.ofNat_add, Nat.add_comm]
      rfl

theorem totalLength_le_of_sublist {as bs : List Bytes} (h : as.Sublist bs) :
    totalLength as ≤ totalLength bs :=
  (h.map List.length).sum_le_sum fun _ _ => Nat.zero_le _

theorem unclearedOf_sublist (ks : List Nat) (base : Nat) (messages : List HeartbeatMessage) :
    (unclearedOf ks base messages).Sublist (messages.map HeartbeatMessage.bytes) := by
  have hall : messages.map HeartbeatMessage.bytes =
      (messages.zipIdx base).map fun part => part.1.bytes := by
    conv_lhs => rw [← List.zipIdx_map_fst base messages, List.map_map]
    rfl
  rw [unclearedOf, hall]
  exact List.filter_sublist.map _

/-- What is sent, if no header has lost its flag. -/
theorem sentMessages_subFrames (ks : List Nat) (base : Nat) (stfs : List SubFrame)
    (hheaders : ∀ p ∈ subFramesFrom base stfs, p.1 - 1 ∉ ks)
    (hsmall : totalLength (stfs.flatMap SubFrame.parts) < 2 ^ 32) :
    sentMessages (flagParts ks base (stfs.flatMap SubFrame.parts)) =
      (subFramesFrom base stfs).flatMap fun p =>
        headed p.2.header (unclearedOf ks p.1 p.2.messages) := by
  induction stfs generalizing base with
  | nil => rfl
  | cons stf stfs ih =>
      rw [subFramesFrom, List.forall_mem_cons] at hheaders
      rw [List.flatMap_cons, totalLength_append, SubFrame.parts, totalLength_cons] at hsmall
      have hown : totalLength (unclearedOf ks (base + 1) stf.messages) < 2 ^ 32 := by
        have hle := totalLength_le_of_sublist (unclearedOf_sublist ks (base + 1) stf.messages)
        omega
      have hrest : totalLength (stfs.flatMap SubFrame.parts) < 2 ^ 32 := by omega
      have hpos : ∀ msg ∈ unclearedOf ks (base + 1) stf.messages, 0 < msg.length := by
        intro msg hmsg
        obtain ⟨own, -, rfl⟩ :=
          List.mem_map.mp ((unclearedOf_sublist ks (base + 1) stf.messages).subset hmsg)
        exact Nat.lt_of_lt_of_le (by decide) own.word
      have hflag : decide (base ∉ ks) = true := decide_eq_true hheaders.1
      rw [List.flatMap_cons, flagParts_append, SubFrame.parts, flagParts, List.zipIdx_cons,
        List.map_cons, ← flagParts, hflag, List.cons_append, sentMessages_header (isStf_header stf),
        sentMessages_messages, contents_messages _ _ _ _ (contents_flagParts _ _ _),
        ← List.append_assoc, announce_eq_headed _ hpos hown, subFramesFrom, List.flatMap_cons,
        ← ih _ hheaders.2 hrest]
      rfl

section Run

variable {s : Selection} {f : FltTrig} (hkeep : f.fIsRemoveHB = false) {tf : TimeFrame.Header}
  (hmagic : tf.magic = TimeFrame.MAGIC) {stfs : List SubFrame} (hne : stfs ≠ [])
  (h : LooksFor s f.fTrig)

include hmagic hne h in
theorem rowWithoutTrigger_iff (i : Nat) :
    f.RowWithoutTrigger tf stfs i ↔
      i < searchedRows f.fSplitMethod stfs ∧ rowTimes s f.fSplitMethod stfs i = [] := by
  rw [RowWithoutTrigger, minBlockCount_frameParts f.fSplitMethod hmagic hne,
    nhits_eq hmagic stfs h, ← rowTimes, List.length_eq_zero_iff]

theorem length_rowsFrom (fSplitMethod : Int) (femType : BitVec 32) (next : Nat) (noData : Bool)
    (messages : List HeartbeatMessage) :
    (rowsFrom fSplitMethod femType next noData messages).length = messages.length := by
  induction messages generalizing next noData with
  | nil => rfl
  | cons msg messages ih => rw [rowsFrom, List.length_cons, List.length_cons, ih]

/-- A filter by position and one by row keep the same messages. -/
theorem filter_zipIdx_eq_filter_zip {α β : Type} {as : List α} {bs : List β}
    (hlength : bs.length = as.length) (base : Nat) (p : α × Nat → Bool) (q : α × β → Bool)
    (hpq : ∀ (k : Nat) (a : α) (b : β), as[k]? = some a → bs[k]? = some b →
      p (a, base + k) = q (a, b)) :
    ((as.zipIdx base).filter p).map Prod.fst = ((as.zip bs).filter q).map Prod.fst := by
  induction as generalizing bs base with
  | nil => rfl
  | cons a as ih =>
      obtain ⟨b, bs, rfl⟩ := List.exists_cons_of_length_pos (by rw [hlength]; exact Nat.succ_pos _)
      have hfirst := hpq 0 a b rfl rfl
      have hrest := @ih bs (Nat.succ.inj hlength) (base + 1) fun k a b ha hb => by
        rw [Nat.add_assoc, Nat.add_comm 1 k]
        exact hpq (k + 1) a b ha hb
      rw [List.zipIdx_cons, List.zip_cons_cons, List.filter_cons, List.filter_cons]
      rw [Nat.add_zero] at hfirst
      rw [hfirst]
      split <;> simp [hrest]

include hkeep hmagic hne h in
theorem unclearedOf_eq_keptOf {p : Nat × SubFrame} (hp : p ∈ subFrames stfs) :
    unclearedOf (f.clearedInRows (frameParts tf stfs)) p.1 p.2.messages =
      keptOf s f.fSplitMethod stfs p.2 := by
  classical
  have hfilter := filter_zipIdx_eq_filter_zip
    (length_rowsFrom f.fSplitMethod p.2.header.femType 0 true p.2.messages) p.1
    (fun part => decide (part.2 ∉ f.clearedInRows (frameParts tf stfs)))
    (fun part => decide (¬ LeftOut s f.fSplitMethod stfs p.2 part)) fun k msg i hmsg hi => ?_
  · have hbytes := congrArg (List.map HeartbeatMessage.bytes) hfilter
    rw [List.map_map, List.map_map] at hbytes
    rw [keptOf, unclearedOf, rows]
    exact hbytes
  · refine decide_eq_decide.mpr (not_congr ?_)
    rw [mem_clearedInRows_iff_of_keep f hkeep hmagic, LeftOut]
    constructor
    · rintro ⟨q, hq, l, hnumber, ⟨msg', i', hmsg', hdata, hi', hrow⟩, htype⟩
      have hk := (List.getElem?_eq_some_iff.mp hmsg).1
      obtain ⟨rfl, rfl⟩ := number_inj hp hq (Nat.le_of_lt hk)
        (List.getElem?_eq_some_iff.mp hmsg').1 hnumber
      obtain rfl := Option.some_inj.mp (hmsg.symm.trans hmsg')
      obtain rfl := Option.some_inj.mp (hi.symm.trans hi')
      exact ⟨hdata, htype, (rowWithoutTrigger_iff hmagic hne h _).mp hrow⟩
    · rintro ⟨hdata, htype, hrow⟩
      exact ⟨p, hp, k, rfl,
        ⟨msg, i, hmsg, hdata, hi, (rowWithoutTrigger_iff hmagic hne h i).mpr hrow⟩, htype⟩

include hkeep hmagic hne h in
theorem sentMessages_rowFlags (hsmall : totalLength (frameParts tf stfs) < 2 ^ 32) :
    sentMessages (f.rowFlags tf stfs) = sentStfs s f.fSplitMethod stfs := by
  have hheaders : ∀ p ∈ subFrames stfs, p.1 - 1 ∉ f.clearedInRows (frameParts tf stfs) := by
    intro p hp hcleared
    obtain ⟨msg, hmsg⟩ := exists_message_of_mem_clearedInRows f hkeep hmagic stfs hcleared
    obtain ⟨before, after, hsplit, hp⟩ := mem_subFramesFrom_iff.mp hp
    have hheader : (frameParts tf stfs)[p.1 - 1]? = some p.2.header.encode := by
      rw [hp, hsplit, frameParts, Nat.add_sub_cancel, Nat.add_comm, List.getElem?_cons_succ,
        List.flatMap_append, List.getElem?_append_right (Nat.le_refl _), Nat.sub_self]
      rfl
    rw [hheader, Option.some_inj] at hmsg
    have hstf := isStf_header p.2
    rw [hmsg, isStf_message] at hstf
    cases hstf
  have hrest : totalLength (stfs.flatMap SubFrame.parts) < 2 ^ 32 := by
    rw [frameParts, totalLength_cons] at hsmall
    omega
  rw [rowFlags, sentMessages_subFrames _ 1 stfs hheaders hrest, sentStfs]
  refine Eq.trans (List.flatMap_congr fun p hp => ?_) (flatMap_subFramesFrom 1 stfs _)
  rw [unclearedOf_eq_keptOf hkeep hmagic hne h hp]

theorem sendParts_suppressed (hsuppress : f.fIsDataSuppress = true)
    (hmagic : tf.magic = TimeFrame.MAGIC) (now : Clock) (totalhits : Nat)
    (parts : List (Bytes × Bool)) :
    f.sendParts now totalhits (some 0) ((tf.encode, true) :: parts) =
      .ok ((f.fltHeader now (sentHeader tf parts).length totalhits).encode ::
        (sentHeader tf parts).encode :: sentMessages parts) := by
  have hlength : keptLength ((tf.encode, true) :: rewriteStfs 0 parts) =
      (sentHeader tf parts).length := by
    rw [keptLength_eq, keptMessages_cons, if_pos rfl, List.singleton_append, totalLength_cons,
      TimeFrame.Header.length_encode]
    rfl
  rw [sendParts]
  simp only [hsuppress, if_true]
  rw [rewriteStfs_message (isStf_encode_tf hmagic), hlength, List.modify_zero_cons,
    rewriteTf_encode]
  rfl

include hkeep hmagic hne h in
/-- The row loop ends, and the time frame header keeps its flag. -/
theorem runRows_frameParts :
    ∃ state, f.runRows (frameParts tf stfs) = .ok state ∧
      (frameParts tf stfs).zip state.flag_sending = (tf.encode, true) :: f.rowFlags tf stfs ∧
      state.totalhits = ((List.range (searchedRows f.fSplitMethod stfs)).map fun i =>
        (rowTimes s f.fSplitMethod stfs i).length).sum ∧
      LooksFor s state.fTrig := by
  have hinside : ∀ j ∈ f.clearedInRows (frameParts tf stfs), j < (frameParts tf stfs).length := by
    intro j hj
    obtain ⟨msg, hmsg⟩ := exists_message_of_mem_clearedInRows f hkeep hmagic stfs hj
    exact (List.getElem?_eq_some_iff.mp hmsg).1
  have hfirst : 0 ∉ f.clearedInRows (frameParts tf stfs) := by
    intro hzero
    obtain ⟨msg, hmsg⟩ := exists_message_of_mem_clearedInRows f hkeep hmagic stfs hzero
    have htf := msg.notTimeFrame
    rw [frameParts, List.getElem?_cons_zero, Option.some_inj] at hmsg
    exact htf (hmsg ▸ tf.field_encode.trans hmagic)
  refine ⟨_, by rw [runRows_eq, if_pos hinside], ?_, ?_, looksFor_trigBefore h _ _ _⟩
  · show (frameParts tf stfs).zip (clearedFlags _ _) = _
    rw [zip_clearedFlags, frameParts, flagParts, List.zipIdx_cons, List.map_cons, ← flagParts,
      ← frameParts, rowFlags]
    simp [hfirst]
  · show ((List.range (minBlockCount _)).map _).sum = _
    rw [minBlockCount_frameParts f.fSplitMethod hmagic hne]
    exact congrArg List.sum (List.map_congr_left fun i _ => nhits_eq hmagic stfs h i)

include hkeep hmagic hne h in
/-- A run sends what the selection means for the frame, and leaves the engine looking for
the same selection. -/
theorem conditionalRun_sentFrame (hsuppress : f.fIsDataSuppress = true)
    (hsmall : totalLength (frameParts tf stfs) < 2 ^ 32) (now : Clock) :
    ∃ fTrig, f.conditionalRun now (frameParts tf stfs) =
        .ok ({ f with fTrig := fTrig }, f.sentFrame s stfs now tf) ∧ LooksFor s fTrig := by
  have hlength : ¬ (frameParts tf stfs).length < 2 := by
    obtain ⟨stf, rest, rfl⟩ := List.exists_cons_of_ne_nil hne
    rw [frameParts, List.length_cons, List.flatMap_cons, List.length_append, length_parts]
    omega
  obtain ⟨state, hrun, hflags, hhits, hlooks⟩ := runRows_frameParts hkeep hmagic hne h
  refine ⟨state.fTrig, ?_, hlooks⟩
  rw [conditionalRun, if_neg hlength, hrun]
  simp only [Bind.bind, Except.bind]
  rw [i_tfHeader_frameParts f.fSplitMethod hmagic, hflags, sendParts_suppressed hsuppress hmagic,
    sentHeader, sentMessages_rowFlags hkeep hmagic hne h hsmall, hhits]
  rfl

end Run

end FltTrig
end Exam6
end Userworks
