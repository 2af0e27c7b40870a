import Userworks.Exam6.RowLoop

/-!
Which keep flags the row loop clears, and when heartbeat removal stays inside the
sub time frame.

The flag behind a data message is cleared without a look at the message there. It
is a heartbeat of the same sub time frame, or the data message of another row
without hits, exactly when the layout of the frame makes it so; behind the last
message of a sub time frame the next header loses its flag, and behind the last
one of the frame the write is undefined.
-/
namespace Userworks
namespace Exam6
namespace FltTrig

open LogicFilter (HeartbeatMessage SubFrame frameParts)

section Frame

variable (f : FltTrig) (tf : TimeFrame.Header) (stfs : List SubFrame)

/-- The row loop reaches row `i` and finds no hits in it. -/
def RowWithoutTrigger (i : Nat) : Prop :=
  let block_map := makeBlockMap f.fSplitMethod (frameParts tf stfs)
  i < minBlockCount block_map ∧ f.nhits block_map (frameParts tf stfs) i = 0

/-- Message `k` of a sub time frame is a data message of a row without trigger. -/
def Untriggered (stf : SubFrame) (k : Nat) : Prop :=
  ∃ msg i, stf.messages[k]? = some msg ∧ isHeartbeat stf.header.femType msg = false ∧
    (rows f.fSplitMethod stf)[k]? = some i ∧ f.RowWithoutTrigger tf stfs i

end Frame

/-- Message `k` of a sub time frame is a heartbeat message. -/
def HeartbeatAt (stf : SubFrame) (k : Nat) : Prop :=
  ∃ msg, stf.messages[k]? = some msg ∧ isHeartbeat stf.header.femType msg = true

theorem Untriggered.lt_length {f : FltTrig} {tf : TimeFrame.Header} {stfs : List SubFrame}
    {stf : SubFrame} {k : Nat} (h : f.Untriggered tf stfs stf k) : k < stf.messages.length := by
  obtain ⟨msg, _, hmsg, _⟩ := h
  exact (List.getElem?_eq_some_iff.mp hmsg).1

theorem HeartbeatAt.lt_length {stf : SubFrame} {k : Nat} (h : HeartbeatAt stf k) :
    k < stf.messages.length := by
  obtain ⟨msg, hmsg, _⟩ := h
  exact (List.getElem?_eq_some_iff.mp hmsg).1

theorem mem_clearedBy_blockAt_iff (f : FltTrig) (h : SubTimeFrame.Header) {i : Nat} (hi : 0 < i)
    (msg : HeartbeatMessage) (j : Nat) :
    j ∈ f.clearedBy (blockAt h i msg) ↔ isHeartbeat h.femType msg = false ∧
      (j = i ∧ h.femType ≠ SubTimeFrame.NULDEV ∨ j = i + 1 ∧ f.RemovesNext) := by
  rw [clearedBy, blockAt_msg_index, blockAt_is_HB, blockAt_type, Int.toNat_natCast]
  cases isHeartbeat h.femType msg with
  | true => simp
  | false =>
      rw [if_pos ⟨by omega, rfl⟩, List.mem_append]
      simp only [true_and]
      refine or_congr ?_ ?_
      · split <;> simp_all
      · split <;> simp_all

/-- The flags that are cleared are those of data messages of rows without trigger
and, with heartbeat removal, those of the messages behind them. -/
theorem mem_clearedInRows_iff (f : FltTrig) {tf : TimeFrame.Header}
    (hmagic : tf.magic = TimeFrame.MAGIC) (stfs : List SubFrame) (j : Nat) :
    j ∈ f.clearedInRows (frameParts tf stfs) ↔
      ∃ p ∈ subFrames stfs, ∃ k, f.Untriggered tf stfs p.2 k ∧
        (j = p.1 + k ∧ p.2.header.femType ≠ SubTimeFrame.NULDEV ∨
          j = p.1 + k + 1 ∧ f.RemovesNext) := by
  constructor
  · intro hj
    obtain ⟨i, hi, hj⟩ := List.mem_flatMap.mp hj
    rw [List.mem_range] at hi
    rw [clearedInRow] at hj
    split at hj
    · next hnone =>
        obtain ⟨dbl, hdbl, hj⟩ := List.mem_flatMap.mp hj
        obtain ⟨p, hp, hblock⟩ := (mem_row_iff f.fSplitMethod hmagic stfs i dbl).mp hdbl
        have hindex : dbl.msg_index ≠ -2 := by
          intro hdummy
          rw [clearedBy, if_neg (by omega)] at hj
          cases hj
        obtain ⟨k, msg, hmsg, hrow, rfl⟩ :=
          (getElem?_stfBlocks_iff f.fSplitMethod p i dbl).mp ⟨hblock, hindex⟩
        have hpos := lt_of_mem_subFramesFrom hp
        have hwrite := (mem_clearedBy_blockAt_iff f p.2.header (by omega) msg j).mp hj
        exact ⟨p, hp, k, ⟨msg, i, hmsg, hwrite.1, hrow, hi, hnone⟩, hwrite.2⟩
    · cases hj
  · rintro ⟨p, hp, k, ⟨msg, i, hmsg, hdata, hrow, hi, hnone⟩, hj⟩
    have hpos := lt_of_mem_subFramesFrom hp
    have hblock := (getElem?_stfBlocks_iff f.fSplitMethod p i _).mpr ⟨k, msg, hmsg, hrow, rfl⟩
    refine List.mem_flatMap.mpr ⟨i, List.mem_range.mpr hi, ?_⟩
    rw [clearedInRow, if_pos hnone]
    refine List.mem_flatMap.mpr ⟨blockAt p.2.header (p.1 + k) msg, ?_, ?_⟩
    · exact (mem_row_iff f.fSplitMethod hmagic stfs i _).mpr ⟨p, hp, hblock.1⟩
    · exact (mem_clearedBy_blockAt_iff f p.2.header (by omega) msg j).mpr ⟨hdata, hj⟩

section Frame

variable (f : FltTrig) (tf : TimeFrame.Header) (stfs : List SubFrame)

/-- The flag of message `j` may be cleared: it is a data message of a row without
trigger, or the heartbeat behind such a message in the same sub time frame. -/
def Removable (j : Nat) : Prop :=
  ∃ p ∈ subFrames stfs, ∃ k, j = p.1 + k ∧
    (f.Untriggered tf stfs p.2 k ∨
      ∃ l, k = l + 1 ∧ f.Untriggered tf stfs p.2 l ∧ HeartbeatAt p.2 k)

/-- The row loop clears no other flag and writes to no place outside of the frame. -/
def StaysInside : Prop :=
  ∃ s, f.runRows (frameParts tf stfs) = .ok s ∧
    s.flag_sending.length = (frameParts tf stfs).length ∧
    ∀ j, s.flag_sending[j]? = some false → f.Removable tf stfs j

end Frame

/-- The position of such a flag is that of a message of a sub time frame. -/
theorem Removable.exists_message {f : FltTrig} {tf : TimeFrame.Header} {stfs : List SubFrame}
    {j : Nat} (h : f.Removable tf stfs j) :
    ∃ p ∈ subFrames stfs, ∃ k, j = p.1 + k ∧ k < p.2.messages.length ∧
      (f.Untriggered tf stfs p.2 k ∨ HeartbeatAt p.2 k) := by
  obtain ⟨p, hp, k, hj, hmessage⟩ := h
  cases hmessage with
  | inl hdata => exact ⟨p, hp, k, hj, hdata.lt_length, Or.inl hdata⟩
  | inr hnext =>
      obtain ⟨l, -, -, hheartbeat⟩ := hnext
      exact ⟨p, hp, k, hj, hheartbeat.lt_length, Or.inr hheartbeat⟩

theorem Removable.lt_length {f : FltTrig} {tf : TimeFrame.Header} {stfs : List SubFrame} {j : Nat}
    (h : f.Removable tf stfs j) : j < (frameParts tf stfs).length := by
  obtain ⟨p, hp, k, rfl, hk, -⟩ := h.exists_message
  exact (List.getElem?_eq_some_iff.mp (getElem?_frameParts hp hk)).1

/-- Staying inside is a matter of the writes alone. -/
theorem staysInside_iff (f : FltTrig) (tf : TimeFrame.Header) (stfs : List SubFrame) :
    f.StaysInside tf stfs ↔
      ∀ j ∈ f.clearedInRows (frameParts tf stfs), f.Removable tf stfs j := by
  rw [StaysInside, runRows_eq]
  constructor
  · rintro ⟨s, hrun, -, hflags⟩ j hj
    split at hrun
    · next hinside =>
        cases hrun
        exact hflags j ((getElem?_clearedFlags_replicate _ _ _).mpr ⟨hinside j hj, hj⟩)
    · cases hrun
  · intro h
    rw [if_pos fun j hj => (h j hj).lt_length]
    refine ⟨_, rfl, by rw [length_clearedFlags, List.length_replicate], ?_⟩
    intro j hj
    exact h j ((getElem?_clearedFlags_replicate _ _ _).mp hj).2

/-- In split method 0 or 1 heartbeat removal stays inside the sub time frames
exactly when every data message of a row without trigger has a heartbeat or another
such data message behind it in its sub time frame. -/
theorem heartbeat_removal_stays_inside_iff (f : FltTrig)
    (hsplit : f.fSplitMethod = 0 ∨ f.fSplitMethod = 1) (hremove : f.fIsRemoveHB = true)
    {tf : TimeFrame.Header} (hmagic : tf.magic = TimeFrame.MAGIC) (stfs : List SubFrame) :
    f.StaysInside tf stfs ↔ ∀ stf ∈ stfs, ∀ k, f.Untriggered tf stfs stf k →
      HeartbeatAt stf (k + 1) ∨ f.Untriggered tf stfs stf (k + 1) := by
  rw [staysInside_iff]
  constructor
  · intro h stf hstf k hdata
    obtain ⟨base, hp⟩ := exists_mem_subFrames hstf
    have hwrite := (mem_clearedInRows_iff f hmagic stfs (base + k + 1)).mpr
      ⟨(base, stf), hp, k, hdata, Or.inr ⟨rfl, hsplit, hremove⟩⟩
    obtain ⟨q, hq, l, hnumber, hl, hmessage⟩ := (h _ hwrite).exists_message
    -- the position lies in the same sub time frame, one message further
    obtain ⟨rfl, rfl⟩ := number_inj hp hq (show k + 1 ≤ _ from hdata.lt_length) hl hnumber
    exact hmessage.symm
  · intro h j hj
    obtain ⟨p, hp, k, hdata, hposition⟩ := (mem_clearedInRows_iff f hmagic stfs j).mp hj
    cases hposition with
    | inl hself => exact ⟨p, hp, k, hself.1, Or.inl hdata⟩
    | inr hnext =>
        refine ⟨p, hp, k + 1, hnext.1, ?_⟩
        cases h p.2 (mem_of_mem_subFrames hp) k hdata with
        | inl hheartbeat => exact Or.inr ⟨k, rfl, hdata, hheartbeat⟩
        | inr hother => exact Or.inl hother

/-- The trigger engine as it is set up without signals, for the formula `0`. -/
def quietTrigger : Trigger TriggerMap :=
  { Trigger.setTimeRegion { fTMap := { fLut := [false, true], fNsignal := 1, fMapSize := 2 } }
      (1024 * 128) [] with fMarkLen := 10 }

def dataWord : HeartbeatMessage where
  bytes := [0, 0, 0, 0, 0, 0, 0, 0x2c]
  word := by decide
  notTimeFrame := by decide
  notSubTimeFrame := by decide

def heartbeatWord : HeartbeatMessage where
  bytes := [0, 0, 0, 0, 0, 0, 0, 0x70]
  word := by decide
  notTimeFrame := by decide
  notSubTimeFrame := by decide

/-- The sub time frame of a module of type TDC64H. -/
def moduleFrame (messages : List HeartbeatMessage) : SubFrame where
  header := { femType := SubTimeFrame.TDC64H }
  magic := rfl
  messages := messages

theorem frame_with_heartbeat_stays_inside :
    FltTrig.StaysInside { fTrig := quietTrigger, fIsRemoveHB := true } {}
      [moduleFrame [dataWord, heartbeatWord]] := by
  refine (heartbeat_removal_stays_inside_iff { fTrig := quietTrigger, fIsRemoveHB := true }
    (Or.inl rfl) rfl rfl _).mpr ?_
  intro stf hstf k hdata
  rw [List.mem_singleton.mp hstf] at hdata ⊢
  obtain ⟨msg, i, hmsg, hnotHB, -⟩ := hdata
  match k, hmsg with
  | 0, _ => exact Or.inl ⟨heartbeatWord, rfl, by decide⟩
  | 1, hmsg =>
      cases hmsg
      exact absurd hnotHB (by decide)

/-- The data message of a module that sent no heartbeat: the flag of the header
behind it is cleared. -/
theorem frame_without_heartbeat_leaves_inside :
    ¬ FltTrig.StaysInside { fTrig := quietTrigger, fIsRemoveHB := true } {}
      [moduleFrame [dataWord], moduleFrame [dataWord, heartbeatWord]] := by
  intro h
  rw [staysInside_iff] at h
  have hwrite : 3 ∈ FltTrig.clearedInRows { fTrig := quietTrigger, fIsRemoveHB := true }
      (frameParts {} [moduleFrame [dataWord], moduleFrame [dataWord, heartbeatWord]]) := by
    rw [clearedInRows_of_no_signal rfl]
    decide
  obtain ⟨p, hp, k, hnumber, hk, -⟩ := (h 3 hwrite).exists_message
  -- message 3 is the header of the second sub time frame
  rcases List.mem_cons.mp hp with rfl | hp
  · have hone : k < 1 := hk
    have hnumber : 3 = 2 + k := hnumber
    omega
  · rw [List.mem_singleton.mp hp] at hnumber
    have hnumber : 3 = 4 + k := hnumber
    omega

end FltTrig
end Exam6
end Userworks
