import Userworks.Exam6.HeaderRewriting
import Userworks.Exam6.HeartbeatRemoval

/-!
What a suppressed time frame says about itself when heartbeats are kept.

The lengths in the headers fit what is sent, but a sub time frame header is written
with the number of the messages behind it, where the samplers and builders count
the header too, and the number of sub time frames in the time frame header stays
what it was. Both are right only if nothing but the time frame header is sent and
it announced no sub time frame.
-/
namespace Userworks
namespace Exam6
namespace FltTrig

open LogicFilter (HeartbeatMessage SubFrame frameParts)
open TimeFrameBuilder (totalLength)

/-- Messages with the flags that are left when those at `ks` are cleared. -/
def flagParts (ks : List Nat) (base : Nat) (parts : List Bytes) : List (Bytes × Bool) :=
  (parts.zipIdx base).map fun part => (part.1, decide (part.2 ∉ ks))

theorem zip_clearedFlags (ks : List Nat) (parts : List Bytes) :
    parts.zip (clearedFlags (List.replicate parts.length true) ks) = flagParts ks 0 parts := by
  apply List.ext_getElem?
  intro j
  rw [List.zip, List.getElem?_zipWith, clearedFlags, List.getElem?_mapIdx, flagParts,
    List.getElem?_map, List.getElem?_zipIdx]
  by_cases hj : j < parts.length
  · simp [hj]
  · simp [List.getElem?_eq_none (Nat.not_lt.mp hj)]

theorem mem_flagParts_iff {ks : List Nat} {base : Nat} {parts : List Bytes} {msg : Bytes}
    {keep : Bool} :
    (msg, keep) ∈ flagParts ks base parts ↔
      ∃ i, parts[i]? = some msg ∧ keep = decide (base + i ∉ ks) := by
  rw [flagParts, List.mem_iff_getElem?]
  refine exists_congr fun i => ?_
  rw [List.getElem?_map, List.getElem?_zipIdx]
  cases parts[i]? with
  | none => simp
  | some part => simp [eq_comm]

@[simp] theorem map_fst_flagParts (ks : List Nat) (base : Nat) (parts : List Bytes) :
    (flagParts ks base parts).map Prod.fst = parts := by
  rw [flagParts, List.map_map]
  exact List.zipIdx_map_fst base parts

theorem i_tfHeader_frameParts (fSplitMethod : Int) {tf : TimeFrame.Header}
    (hmagic : tf.magic = TimeFrame.MAGIC) (stfs : List SubFrame) :
    (blockMapLoop fSplitMethod (frameParts tf stfs)).i_tfHeader = some 0 := by
  have hkeep : ∀ (stfs : List SubFrame) (base : Nat) (s : BlockMapState),
      (((stfs.flatMap SubFrame.parts).zipIdx base).foldl
        (makeBlockMapStep fSplitMethod) s).i_tfHeader = s.i_tfHeader := by
    intro stfs
    induction stfs with
    | nil => intros; rfl
    | cons stf stfs ih =>
        intro base s
        rw [List.flatMap_cons, List.zipIdx_append, List.foldl_append, ih, foldl_step_subFrame]
  rw [blockMapLoop, frameParts, List.zipIdx_cons, List.foldl_cons,
    makeBlockMapStep_tf fSplitMethod hmagic, hkeep]

/-- The time frame header that is sent. -/
def sentHeader (tf : TimeFrame.Header) (parts : List (Bytes × Bool)) : TimeFrame.Header :=
  let tf_len := TimeFrame.Header.size + totalLength (sentMessages parts)
  { tf with length := BitVec.ofNat 32 tf_len }

theorem exists_sendParts_eq {f : FltTrig} (hsuppress : f.fIsDataSuppress = true)
    {tf : TimeFrame.Header} (hmagic : tf.magic = TimeFrame.MAGIC) (now : Clock) (totalhits : Nat)
    (parts : List (Bytes × Bool)) :
    ∃ fltHeader, f.sendParts now totalhits (some 0) ((tf.encode, true) :: parts) =
      .ok (fltHeader :: (sentHeader tf parts).encode :: sentMessages parts) := by
  have hlength : keptLength ((tf.encode, true) :: rewriteStfs 0 parts) =
      (sentHeader tf parts).length := by
    rw [keptLength_eq, keptMessages_cons, if_pos rfl, List.singleton_append, totalLength_cons,
      TimeFrame.Header.length_encode]
    rfl
  rw [sendParts]
  simp only [hsuppress, if_true]
  rw [rewriteStfs_message (isStf_encode_tf hmagic), hlength, List.modify_zero_cons,
    rewriteTf_encode]
  exact ⟨_, rfl⟩

theorem isStf_message (msg : HeartbeatMessage) : isStf msg.bytes = false := by
  simp [isStf, msg.notSubTimeFrame]

section Run

variable (f : FltTrig) (hkeep : f.fIsRemoveHB = false) {tf : TimeFrame.Header}
  (hmagic : tf.magic = TimeFrame.MAGIC) (stfs : List SubFrame)

/-- The messages behind the time frame header as the row loop leaves them. -/
def rowFlags (f : FltTrig) (tf : TimeFrame.Header) (stfs : List SubFrame) :
    List (Bytes × Bool) :=
  flagParts (f.clearedInRows (frameParts tf stfs)) 1 (stfs.flatMap SubFrame.parts)

include hkeep hmagic

/-- Without heartbeat removal a row clears the flags of its data messages only. -/
theorem mem_clearedInRows_iff_of_keep (j : Nat) :
    j ∈ f.clearedInRows (frameParts tf stfs) ↔
      ∃ p ∈ subFrames stfs, ∃ k, j = p.1 + k ∧ f.Untriggered tf stfs p.2 k ∧
        p.2.header.femType ≠ SubTimeFrame.NULDEV := by
  have hnext : ¬ f.RemovesNext := fun h => Bool.false_ne_true (hkeep.symm.trans h.2)
  rw [mem_clearedInRows_iff f hmagic]
  refine exists_congr fun p => and_congr_right fun _ => exists_congr fun k => ?_
  constructor
  · rintro ⟨hdata, hself | hother⟩
    · exact ⟨hself.1, hdata, hself.2⟩
    · exact absurd hother.2 hnext
  · rintro ⟨hj, hdata, htype⟩
    exact ⟨hdata, Or.inl ⟨hj, htype⟩⟩

theorem exists_message_of_mem_clearedInRows {j : Nat}
    (hj : j ∈ f.clearedInRows (frameParts tf stfs)) :
    ∃ msg : HeartbeatMessage, (frameParts tf stfs)[j]? = some msg.bytes := by
  obtain ⟨p, hp, k, rfl, hdata, -⟩ := (mem_clearedInRows_iff_of_keep f hkeep hmagic stfs j).mp hj
  exact ⟨_, getElem?_frameParts hp hdata.lt_length⟩

theorem flagged_rowFlags : Flagged (f.rowFlags tf stfs) := by
  have hparts : ∀ part ∈ f.rowFlags tf stfs,
      (∃ own : HeartbeatMessage, part.1 = own.bytes) ∨
        part.1.length = SubTimeFrame.Header.size := by
    intro part hpart
    have hmsg := List.mem_map_of_mem (f := Prod.fst) hpart
    rw [rowFlags, map_fst_flagParts] at hmsg
    obtain ⟨stf, -, hmsg⟩ := List.mem_flatMap.mp hmsg
    cases List.mem_cons.mp hmsg with
    | inl hheader => exact Or.inr (by rw [hheader, SubTimeFrame.Header.length_encode])
    | inr hmsg =>
        obtain ⟨own, -, hown⟩ := List.mem_map.mp hmsg
        exact Or.inl ⟨own, hown.symm⟩
  apply flagged_of_forall
  · intro part hpart
    cases hparts part hpart with
    | inl hmsg =>
        obtain ⟨own, hown⟩ := hmsg
        rw [hown]
        exact Nat.lt_of_lt_of_le (by decide) own.word
    | inr hheader =>
        rw [hheader]
        decide
  · rintro ⟨msg, keep⟩ hpart hstf
    constructor
    · obtain ⟨i, hi, rfl⟩ := mem_flagParts_iff.mp hpart
      refine decide_eq_true fun hcleared => ?_
      obtain ⟨own, hown⟩ := exists_message_of_mem_clearedInRows f hkeep hmagic stfs hcleared
      rw [frameParts, Nat.add_comm, List.getElem?_cons_succ, hi] at hown
      cases hown
      exact Bool.false_ne_true ((isStf_message own).symm.trans hstf)
    · cases hparts _ hpart with
      | inl hmsg =>
          obtain ⟨own, hown⟩ := hmsg
          rw [hown, isStf_message] at hstf
          cases hstf
      | inr hheader => exact Nat.le_of_eq hheader.symm

/-- Every message is left out exactly when all of them are data messages of rows
without trigger. -/
theorem forall_dropped_iff :
    (∀ part ∈ f.rowFlags tf stfs, isStf part.1 = false → part.2 = false) ↔
      ∀ stf ∈ stfs, ∀ k < stf.messages.length,
        f.Untriggered tf stfs stf k ∧ stf.header.femType ≠ SubTimeFrame.NULDEV := by
  constructor
  · intro h stf hstf k hk
    obtain ⟨base, hp⟩ := exists_mem_subFrames hstf
    have hbase := lt_of_mem_subFramesFrom hp
    have hpart := @getElem?_frameParts tf stfs (base, stf) hp k hk
    have hnumber : base + k = (base + k - 1) + 1 := by simp only at hbase; omega
    rw [hnumber, frameParts, List.getElem?_cons_succ] at hpart
    have hflag := h _ (mem_flagParts_iff.mpr ⟨_, hpart, rfl⟩) (isStf_message _)
    rw [decide_eq_false_iff_not, not_not, Nat.add_comm, ← hnumber] at hflag
    obtain ⟨q, hq, l, hsame, hdata, htype⟩ :=
      (mem_clearedInRows_iff_of_keep f hkeep hmagic stfs _).mp hflag
    obtain ⟨rfl, rfl⟩ := number_inj hp hq (Nat.le_of_lt hk) hdata.lt_length hsame
    exact ⟨hdata, htype⟩
  · rintro h ⟨msg, keep⟩ hpart hmsg
    obtain ⟨i, hi, rfl⟩ := mem_flagParts_iff.mp hpart
    rcases @header_or_message stfs 1 i msg hi with hheader | ⟨p, hp, k, hk, hnumber⟩
    · exact absurd hheader (by simp [hmsg])
    · obtain ⟨hdata, htype⟩ := h p.2 (mem_of_mem_subFrames hp) k hk
      rw [decide_eq_false_iff_not, not_not, mem_clearedInRows_iff_of_keep f hkeep hmagic]
      exact ⟨p, hp, k, hnumber, hdata, htype⟩

/-- A run on a frame with a sub time frame ends, and this is what it sends. -/
theorem conditionalRun_eq (hsuppress : f.fIsDataSuppress = true) (hstfs : stfs ≠ [])
    (now : Clock) :
    ∃ f' fltHeader, f.conditionalRun now (frameParts tf stfs) =
      .ok (f', fltHeader :: (sentHeader tf (f.rowFlags tf stfs)).encode ::
        sentMessages (f.rowFlags tf stfs)) := by
  have hlength : ¬ (frameParts tf stfs).length < 2 := by
    cases stfs with
    | nil => exact absurd rfl hstfs
    | cons stf stfs =>
        rw [frameParts, List.length_cons, List.flatMap_cons, List.length_append, length_parts]
        omega
  have hinside : ∀ j ∈ f.clearedInRows (frameParts tf stfs), j < (frameParts tf stfs).length := by
    intro j hj
    obtain ⟨msg, hmsg⟩ := exists_message_of_mem_clearedInRows f hkeep hmagic stfs hj
    exact (List.getElem?_eq_some_iff.mp hmsg).1
  have hfirst : 0 ∉ f.clearedInRows (frameParts tf stfs) := by
    intro hzero
    obtain ⟨p, hp, k, hnumber, -⟩ :=
      (mem_clearedInRows_iff_of_keep f hkeep hmagic stfs 0).mp hzero
    have hpos := lt_of_mem_subFramesFrom hp
    omega
  have hparts : (frameParts tf stfs).zip (clearedFlags
      (List.replicate (frameParts tf stfs).length true) (f.clearedInRows (frameParts tf stfs))) =
      (tf.encode, true) :: f.rowFlags tf stfs := by
    rw [zip_clearedFlags, frameParts, flagParts, List.zipIdx_cons, List.map_cons, ← flagParts,
      ← frameParts, rowFlags]
    simp [hfirst]
  obtain ⟨s, hrun, hflags⟩ : ∃ s, f.runRows (frameParts tf stfs) = .ok s ∧
      s.flag_sending = clearedFlags (List.replicate (frameParts tf stfs).length true)
        (f.clearedInRows (frameParts tf stfs)) :=
    ⟨_, by rw [runRows_eq, if_pos hinside], rfl⟩
  obtain ⟨fltHeader, hsend⟩ :=
    exists_sendParts_eq hsuppress hmagic now s.totalhits (f.rowFlags tf stfs)
  refine ⟨{ f with fTrig := s.fTrig }, fltHeader, ?_⟩
  rw [conditionalRun, if_neg hlength, hrun]
  simp only [Bind.bind, Except.bind]
  rw [i_tfHeader_frameParts f.fSplitMethod hmagic, hflags, hparts, hsend]
  rfl

omit hkeep hmagic in
/-- The first message behind the time frame header is a header. -/
theorem contents_rowFlags : contents (f.rowFlags tf stfs) = [] := by
  cases stfs with
  | nil => rfl
  | cons stf stfs =>
      rw [rowFlags, List.flatMap_cons, SubFrame.parts, List.cons_append, flagParts,
        List.zipIdx_cons, List.map_cons]
      exact contents_header (by simp [isStf, stf.header.field_encode, stf.magic]) _ _

/-- In a frame of less than 4 GiB the lengths that are announced are right, a sub time
frame counts the messages behind its header, and the time frame counts the sub
time frames that came in. -/
theorem suppressed_frame_headers (hsuppress : f.fIsDataSuppress = true) (hstfs : stfs ≠ [])
    (hsmall : totalLength (frameParts tf stfs) < 2 ^ 32) (now : Clock) :
    ∃ f' fltHeader, ∃ head : TimeFrame.Header, ∃ sent,
      f.conditionalRun now (frameParts tf stfs) = .ok (f', fltHeader :: head.encode :: sent) ∧
      head = { tf with length := head.length } ∧
      head.length.toNat = totalLength (head.encode :: sent) ∧
      ∀ before msg rest, sent = before ++ msg :: rest → isStf msg = true →
        (SubTimeFrame.Header.decode msg).length.toNat =
            SubTimeFrame.Header.size + totalLength (ownMessages rest) ∧
          (SubTimeFrame.Header.decode msg).numMessages =
            BitVec.ofNat 32 (ownMessages rest).length := by
  obtain ⟨f', fltHeader, hrun⟩ := conditionalRun_eq f hkeep hmagic stfs hsuppress hstfs now
  have hflagged := flagged_rowFlags f hkeep hmagic stfs
  have hparts :
      totalLength ((f.rowFlags tf stfs).map Prod.fst) + TimeFrame.Header.size < 2 ^ 32 := by
    rw [rowFlags, map_fst_flagParts]
    rw [frameParts, totalLength_cons, TimeFrame.Header.length_encode] at hsmall
    omega
  refine ⟨f', fltHeader, sentHeader tf (f.rowFlags tf stfs), _, hrun, rfl, ?_, ?_⟩
  · have hsent := hflagged.totalLength_sentMessages_le
    rw [sentHeader, BitVec.toNat_ofNat, totalLength_cons, TimeFrame.Header.length_encode]
    exact Nat.mod_eq_of_lt (by omega)
  · intro before msg rest hsent hmsg
    exact hflagged.sent_header (by omega) hsent hmsg

/-- A suppressed time frame describes itself exactly when all its messages are left
out and its header announced no sub time frame. -/
theorem suppressed_frame_self_describing_iff (hsuppress : f.fIsDataSuppress = true)
    (hstfs : stfs ≠ []) (now : Clock) :
    ∃ f' fltHeader sent, f.conditionalRun now (frameParts tf stfs) = .ok (f', fltHeader :: sent) ∧
      (SelfDescribing sent ↔
        tf.numSource = 0 ∧ ∀ stf ∈ stfs, ∀ k < stf.messages.length,
          f.Untriggered tf stfs stf k ∧ stf.header.femType ≠ SubTimeFrame.NULDEV) := by
  obtain ⟨f', fltHeader, hrun⟩ := conditionalRun_eq f hkeep hmagic stfs hsuppress hstfs now
  refine ⟨f', fltHeader, _, hrun, ?_⟩
  rw [← forall_dropped_iff f hkeep hmagic]
  exact @Flagged.selfDescribing_iff _ (flagged_rowFlags f hkeep hmagic stfs)
    (contents_rowFlags f stfs) (sentHeader tf (f.rowFlags tf stfs)) hmagic rfl

end Run

theorem empty_frame_describes_itself :
    ∃ f' fltHeader sent, FltTrig.conditionalRun { fTrig := quietTrigger } ⟨0, 0, 0⟩
        (frameParts {} [moduleFrame [dataWord]]) = .ok (f', fltHeader :: sent) ∧
      SelfDescribing sent := by
  obtain ⟨f', fltHeader, sent, hrun, hiff⟩ := @suppressed_frame_self_describing_iff
    { fTrig := quietTrigger } rfl {} rfl [moduleFrame [dataWord]] rfl (by simp) ⟨0, 0, 0⟩
  refine ⟨f', fltHeader, sent, hrun, hiff.mpr ⟨rfl, ?_⟩⟩
  intro stf hstf k hk
  rw [List.mem_singleton.mp hstf] at hk ⊢
  have hzero : k = 0 := Nat.lt_one_iff.mp hk
  subst hzero
  exact ⟨⟨dataWord, 0, rfl, by decide, by decide, by decide, nhits_of_no_signal rfl _ _ 0⟩,
    by decide⟩

/-- One module with a data message and its heartbeat in a row without trigger: the
header is sent with one message behind it, and it says one message where its
producers say two. -/
theorem header_not_counted :
    ∃ f' fltHeader sent, FltTrig.conditionalRun { fTrig := quietTrigger } ⟨0, 0, 0⟩
        (frameParts { numSource := 1 } [moduleFrame [dataWord, heartbeatWord]]) =
          .ok (f', fltHeader :: sent) ∧
      ¬ SelfDescribing sent := by
  obtain ⟨f', fltHeader, hrun⟩ := @conditionalRun_eq { fTrig := quietTrigger } rfl
    { numSource := 1 } rfl [moduleFrame [dataWord, heartbeatWord]] rfl (by simp) ⟨0, 0, 0⟩
  refine ⟨f', fltHeader, _, hrun, ?_⟩
  have hcleared : FltTrig.clearedInRows { fTrig := quietTrigger }
      (frameParts { numSource := 1 } [moduleFrame [dataWord, heartbeatWord]]) = [2] := by
    rw [clearedInRows_of_no_signal rfl]
    decide
  have hsent : sentMessages (FltTrig.rowFlags { fTrig := quietTrigger } { numSource := 1 }
      [moduleFrame [dataWord, heartbeatWord]]) =
      [announce (moduleFrame []).header.encode [heartbeatWord.bytes], heartbeatWord.bytes] := by
    rw [rowFlags, hcleared]
    decide
  intro hself
  have hcount := hself.numMessages [_] _ [heartbeatWord.bytes]
    (by rw [hsent]; rfl) (by rw [isStf_announce]; decide)
  rw [decode_announce] at hcount
  revert hcount
  decide

end FltTrig
end Exam6
end Userworks
