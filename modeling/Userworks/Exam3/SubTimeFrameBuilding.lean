import Userworks.Exam3.HulStrTdcSTFBuilder

/-!
Sub time frame building does not depend on the cuts between the messages.

Words that no delimiter has closed wait in `fInputPayloads`, in the same way whether a
message ends behind them or not. So the builder takes the words of a stream one at a
time, and an invariant over the words seen so far says what is in the buffers and in
the sub time frames that were sent.
-/
namespace Userworks
namespace HulStrTdcSTFBuilder

open HulStrTdc

section Cuts

/-- The words that wait for their delimiter, whichever buffer they are in. -/
theorem closeSegment_carry (s : Builder) (segment : List TdcWord) (w : TdcWord) :
    closeSegment s segment w =
      closeSegment { s with fInputPayloads := s.fInputPayloads ++ segment } [] w := by
  rw [closeSegment, closeSegment, fillData, fillData, List.append_nil]

theorem loop_carry (s : Builder) (segment ws : List TdcWord) :
    loop s segment ws = loop { s with fInputPayloads := s.fInputPayloads ++ segment } [] ws := by
  induction ws generalizing s segment with
  | nil => rw [loop, loop, List.append_nil]
  | cons w ws ih =>
      rw [loop, loop, List.append_nil, closeSegment_carry]
      rw [ih s (segment ++ [w]), ih _ ([] ++ [w]), List.append_assoc, List.nil_append]

theorem loop_append (s : Builder) (segment ws vs : List TdcWord) :
    loop s segment (ws ++ vs) = loop s segment ws >>= fun s' => loop s' [] vs := by
  induction ws generalizing s segment with
  | nil => exact loop_carry s segment vs
  | cons w ws ih =>
      rw [List.cons_append, loop, loop]
      split
      · exact ih _ _
      · split
        · cases closeSegment s segment w with
          | error fault => rfl
          | ok s' => exact ih s' []
        · exact ih _ _

/-- The builder with older sub time frames in front of its queue. -/
def Builder.behind (s : Builder) (older : List SubTimeFrame) : Builder :=
  { s with fOutputPayloads := older ++ s.fOutputPayloads }

/-- An operation that only adds to the queue. -/
def OnlyAdds (f : Builder → Except Fault Builder) : Prop :=
  ∀ s older, f (s.behind older) = (f s).map (·.behind older)

theorem OnlyAdds.bind {f g : Builder → Except Fault Builder} (hf : OnlyAdds f) (hg : OnlyAdds g) :
    OnlyAdds fun s => f s >>= g := by
  intro s older
  have hfirst := hf s older
  cases hs : f s with
  | error fault =>
      rw [hs] at hfirst
      simp only [hs, hfirst]
      rfl
  | ok s' =>
      rw [hs] at hfirst
      simp only [hs, hfirst]
      exact hg s' older

theorem OnlyAdds.ite {f g : Builder → Except Fault Builder} {p : Builder → Prop}
    [DecidablePred p] (hp : ∀ s older, p (s.behind older) ↔ p s) (hf : OnlyAdds f)
    (hg : OnlyAdds g) : OnlyAdds fun s => if p s then f s else g s := by
  intro s older
  by_cases hs : p s
  · simp only [if_pos hs, if_pos ((hp s older).mpr hs)]
    exact hf s older
  · simp only [if_neg hs, if_neg (mt (hp s older).mp hs)]
    exact hg s older

theorem onlyAdds_pure {f : Builder → Builder}
    (hf : ∀ s older, f (s.behind older) = (f s).behind older) : OnlyAdds fun s => .ok (f s) := by
  intro s older
  dsimp only
  rw [hf]
  rfl

theorem onlyAdds_ok : OnlyAdds fun s => .ok s := onlyAdds_pure fun _ _ => rfl

theorem newData_onlyAdds : OnlyAdds newData := by
  intro s older
  have hsame : (s.behind older).fWorkingPayloads = s.fWorkingPayloads := rfl
  rw [newData, newData, hsame]
  cases s.fWorkingPayloads with
  | some payloads => rfl
  | none =>
      dsimp only [Builder.behind]
      split
      · rfl
      · split <;> rfl

theorem finalizeSTF_onlyAdds : OnlyAdds finalizeSTF := by
  intro s older
  rw [finalizeSTF, finalizeSTF, Builder.behind]
  cases s.fWorkingPayloads with
  | none => rfl
  | some payloads =>
      dsimp only
      rw [List.append_assoc]
      rfl

/-- The choice between two operations by the number of delimiters. -/
theorem ifFull_onlyAdds {f g : Builder → Except Fault Builder} (hf : OnlyAdds f)
    (hg : OnlyAdds g) : OnlyAdds fun s => isFull s >>= fun full => if full then f s else g s := by
  intro s older
  have hsame : isFull (s.behind older) = isFull s := rfl
  dsimp only
  rw [hsame]
  cases isFull s with
  | error fault => rfl
  | ok full =>
      cases full with
      | true => exact hf s older
      | false => exact hg s older

theorem emplaceBack_onlyAdds (payload : List TdcWord) :
    OnlyAdds fun s => .ok (emplaceBack s payload) :=
  onlyAdds_pure fun _ _ => rfl

theorem finalizeInFill_onlyAdds : OnlyAdds finalizeInFill :=
  OnlyAdds.ite (fun _ _ => Iff.rfl)
    (ifFull_onlyAdds (finalizeSTF_onlyAdds.bind newData_onlyAdds) onlyAdds_ok) onlyAdds_ok

theorem fillData_onlyAdds (segment : List TdcWord) (last : TdcWord) (isSpillEnd : Bool) :
    OnlyAdds fun s => fillData s segment last isSpillEnd := by
  have hclear : OnlyAdds fun s => .ok { s with fInputPayloads := [] } :=
    onlyAdds_pure fun _ _ => rfl
  have hpush : ∀ buf : List TdcWord,
      OnlyAdds fun s => .ok (if buf.isEmpty then s else emplaceBack s buf) := by
    intro buf
    cases buf with
    | nil => exact onlyAdds_ok
    | cons => exact emplaceBack_onlyAdds _
  have hlast : OnlyAdds fun s => .ok (if isSpillEnd then s else emplaceBack s [last]) := by
    cases isSpillEnd with
    | true => exact onlyAdds_ok
    | false => exact emplaceBack_onlyAdds _
  intro s older
  exact (hclear.bind (newData_onlyAdds.bind ((hpush (s.fInputPayloads ++ segment)).bind
    (finalizeInFill_onlyAdds.bind hlast)))) s older

theorem countDelimiter_onlyAdds (w : TdcWord) : OnlyAdds fun s => countDelimiter s w := by
  have hcount : OnlyAdds fun s => .ok { s with fHBFCounter := s.fHBFCounter + 1 } :=
    onlyAdds_pure fun _ _ => rfl
  have hfinalize : OnlyAdds fun s => if s.fSplitMethod = 0 then
      isFull s >>= fun full => if full then finalizeSTF s else .ok s
      else .ok s :=
    OnlyAdds.ite (fun _ _ => Iff.rfl) (ifFull_onlyAdds finalizeSTF_onlyAdds onlyAdds_ok)
      onlyAdds_ok
  exact OnlyAdds.ite (fun _ _ => Iff.rfl) (hcount.bind hfinalize) onlyAdds_ok

theorem closeSpill_onlyAdds (w : TdcWord) : OnlyAdds fun s => closeSpill s w :=
  OnlyAdds.ite (fun _ _ => Iff.rfl) ((fillData_onlyAdds [w] w true).bind finalizeSTF_onlyAdds)
    onlyAdds_ok

theorem closeSegment_onlyAdds (segment : List TdcWord) (w : TdcWord) :
    OnlyAdds fun s => closeSegment s segment w :=
  (fillData_onlyAdds segment w _).bind ((countDelimiter_onlyAdds w).bind (closeSpill_onlyAdds w))

theorem loop_onlyAdds (segment ws : List TdcWord) : OnlyAdds fun s => loop s segment ws := by
  induction ws generalizing segment with
  | nil => exact onlyAdds_pure fun _ _ => rfl
  | cons w ws ih =>
      intro s older
      dsimp only
      rw [loop, loop]
      split
      · exact ih [] { s with fInputPayloads := s.fInputPayloads ++ segment } older
      · split
        · exact ((closeSegment_onlyAdds segment w).bind (ih [])) s older
        · exact ih _ s older

theorem run_eq_loop {s : Builder} (h : s.fOutputPayloads = []) (msgs : List Bytes) :
    run s msgs = (loop s [] (msgs.flatMap tdcWords)).map fun s' =>
      (s'.fOutputPayloads, { s' with fOutputPayloads := [] }) := by
  induction msgs generalizing s with
  | nil =>
      rw [run, List.flatMap_nil, loop, List.append_nil]
      simp only [Except.map, ← h]
  | cons msg msgs ih =>
      rw [run, buildFrame, List.flatMap_cons, loop_append]
      cases loop s [] (tdcWords msg) with
      | error fault => rfl
      | ok s' =>
          have hbehind : s' = Builder.behind { s' with fOutputPayloads := [] }
              s'.fOutputPayloads := by
            rw [Builder.behind, List.append_nil]
          have hrest := loop_onlyAdds [] (msgs.flatMap tdcWords)
            { s' with fOutputPayloads := [] } s'.fOutputPayloads
          dsimp only at hrest
          rw [← hbehind] at hrest
          change (run { s' with fOutputPayloads := [] } msgs >>= fun result =>
            .ok (s'.fOutputPayloads ++ result.1, result.2)) = _
          rw [ih rfl]
          change _ = Except.map _ (loop s' [] (msgs.flatMap tdcWords))
          rw [hrest]
          cases loop { s' with fOutputPayloads := [] } [] (msgs.flatMap tdcWords) <;> rfl

theorem tdcWords_append {msg : Bytes} (h : wordSize ∣ msg.length) (rest : Bytes) :
    tdcWords (msg ++ rest) = tdcWords msg ++ tdcWords rest := by
  fun_induction tdcWords msg with
  | case1 b0 b1 b2 b3 b4 bs ih =>
      have hrest : wordSize ∣ bs.length := by
        simp only [List.length_cons, wordSize] at h ⊢
        omega
      simp only [List.cons_append, tdcWords, ih hrest]
  | case2 bs hshort =>
      have hlen : bs.length < 5 := by
        apply Nat.lt_of_not_le
        intro hlong
        match bs, hlong with
        | b0 :: b1 :: b2 :: b3 :: b4 :: bs, _ => exact hshort b0 b1 b2 b3 b4 bs rfl
      have hnil : bs = [] :=
        List.eq_nil_of_length_eq_zero (Nat.eq_zero_of_dvd_of_lt h hlen)
      rw [hnil]
      rfl

theorem flatMap_tdcWords {msgs : List Bytes} (h : ∀ msg ∈ msgs, wordSize ∣ msg.length) :
    msgs.flatMap tdcWords = tdcWords msgs.flatten := by
  induction msgs with
  | nil => rfl
  | cons msg msgs ih =>
      rw [List.flatMap_cons, List.flatten_cons, tdcWords_append (h msg List.mem_cons_self),
        ih fun m hm => h m (List.mem_cons_of_mem _ hm)]

end Cuts

section Steps

/-- The messages that are collected for the next sub time frame. -/
def Builder.working (s : Builder) : List (List TdcWord) := s.fWorkingPayloads.getD []

/-- The builder with the sub time frame of what it has collected in its queue. -/
def Builder.sealed (s : Builder) : Builder :=
  { s with
    fWorkingPayloads := none
    fOutputPayloads := s.fOutputPayloads ++ [{
      header :=
        { timeFrameId := s.fSTFId.setWidth 32
          femId := s.fFEMId.setWidth 32
          length := BitVec.ofNat 32 (Header.size + wordSize * s.working.flatten.length)
          numMessages := BitVec.ofNat 32 (s.working.length + 1) }
      payloads := s.working }]
    fSTFId := s.fSTFId + 1
    fHBFCounter := 0 }

/-- The builder with the words that have waited in a message of their own. -/
def Builder.collected (s : Builder) : Builder :=
  { s with
    fInputPayloads := []
    fWorkingPayloads := some (s.working ++ if s.fInputPayloads.isEmpty then [] else
      [s.fInputPayloads]) }

theorem newData_eq {s : Builder} (hpos : 1 ≤ s.fMaxHBF) (hlt : s.fMaxHBF < 2 ^ 30) :
    newData s = .ok { s with fWorkingPayloads := some s.working } := by
  obtain ⟨fFEMId, fMaxHBF, fHBFCounter, fSTFId, fSplitMethod, fInputPayloads, fWorkingPayloads,
    fOutputPayloads⟩ := s
  cases fWorkingPayloads with
  | some payloads => rfl
  | none =>
      simp only at hpos hlt
      rw [newData]
      simp only
      rw [if_neg (by omega), if_neg (by omega)]
      rfl

theorem foldl_size (payloads : List (List TdcWord)) (init : Nat) :
    payloads.foldl (fun init m => init + wordSize * m.length) init =
      init + wordSize * payloads.flatten.length := by
  induction payloads generalizing init with
  | nil => rfl
  | cons m payloads ih =>
      rw [List.foldl_cons, ih, List.flatten_cons, List.length_append, Nat.mul_add, Nat.add_assoc]

theorem finalizeSTF_eq {s : Builder} (h : s.fWorkingPayloads ≠ none) :
    finalizeSTF s = .ok s.sealed := by
  cases hworking : s.fWorkingPayloads with
  | none => exact absurd hworking h
  | some payloads =>
      rw [finalizeSTF, Builder.sealed, Builder.working]
      simp only [hworking, foldl_size, Option.getD_some]

theorem isFull_eq {s : Builder} (hpos : 1 ≤ s.fMaxHBF) (hcount : 0 ≤ s.fHBFCounter)
    (hle : s.fHBFCounter ≤ s.fMaxHBF) :
    isFull s = .ok (decide (s.fHBFCounter = s.fMaxHBF)) := by
  rw [isFull, if_neg (by omega)]
  by_cases hfull : s.fHBFCounter = s.fMaxHBF
  · have hsome : s.fMaxHBF > 0 := by omega
    rw [hfull, Int.tmod_self]
    simp [hsome]
  · have hmod : s.fHBFCounter.tmod s.fMaxHBF = s.fHBFCounter :=
      Int.tmod_eq_of_lt hcount (by omega)
    rw [hmod]
    by_cases hzero : s.fHBFCounter = 0
    · simp [hzero]
      omega
    · simp [hzero, hfull]

end Steps

end HulStrTdcSTFBuilder

namespace HulStrTdc

def isDelimiter (w : TdcWord) : Bool := head w == Heartbeat || head w == ErrorRecovery

def delimiters (ws : List TdcWord) : Nat := ws.countP isDelimiter

namespace SubTimeFrame

/-- The words of the messages behind the header. -/
def words (stf : SubTimeFrame) : List TdcWord := stf.payloads.flatten

def ClosedBySpillEnd (stf : SubTimeFrame) : Prop :=
  ∃ before w, stf.words = before ++ [w] ∧ head w = SpillEnd

/-- The sub time frame number `i`, for a maximum of `max` delimiters. The fields of its
header have 32 bits. -/
structure Correct (max : Int) (i : Nat) (stf : SubTimeFrame) : Prop where
  length_eq : stf.header.length.toNat = (stf.parts.map List.length).sum % 2 ^ 32
  numMessages_eq : stf.header.numMessages.toNat = stf.parts.length
  timeFrameId_eq : stf.header.timeFrameId.toNat = i % 2 ^ 32
  full : ¬ stf.ClosedBySpillEnd → (delimiters stf.words : Int) = max

theorem length_putTdcWords (ws : List TdcWord) :
    (putTdcWords ws).length = wordSize * ws.length := by
  induction ws with
  | nil => rfl
  | cons w ws ih =>
      rw [putTdcWords, List.flatMap_cons, List.length_append, length_put, List.length_cons,
        ← putTdcWords, ih, Nat.mul_succ, Nat.add_comm, wordSize]

theorem sum_length_parts (stf : SubTimeFrame) :
    (stf.parts.map List.length).sum = Header.size + wordSize * stf.words.length := by
  have hheader : stf.header.encode.length = Header.size := by
    simp [Header.encode, Header.size]
  have hpayloads : ∀ payloads : List (List TdcWord),
      ((payloads.map putTdcWords).map List.length).sum = wordSize * payloads.flatten.length := by
    intro payloads
    induction payloads with
    | nil => rfl
    | cons m payloads ih =>
        rw [List.map_cons, List.map_cons, List.sum_cons, ih, List.flatten_cons,
          List.length_append, Nat.mul_add, length_putTdcWords]
  rw [parts, List.map_cons, List.sum_cons, hheader, hpayloads, words]

end SubTimeFrame
end HulStrTdc

namespace HulStrTdcSTFBuilder

open HulStrTdc

section Invariant

/-- What is in the buffers and in the queue after the words `seen`. At most `slack`
messages of data have no delimiter behind them. -/
structure Holds (max : Int) (seen : List TdcWord) (slack : Nat) (s : Builder) : Prop where
  max_eq : s.fMaxHBF = max
  max_pos : 1 ≤ s.fMaxHBF
  max_lt : s.fMaxHBF < 2 ^ 30
  all : s.fOutputPayloads.flatMap SubTimeFrame.words ++ s.working.flatten ++ s.fInputPayloads =
    seen.filter isHeadValid
  data : ∀ w ∈ s.fInputPayloads, head w = DataHead
  count : s.fHBFCounter = delimiters s.working.flatten
  le_max : s.fHBFCounter ≤ s.fMaxHBF
  spill : ∀ w ∈ s.working.flatten, head w ≠ SpillEnd
  messages : s.working.length ≤ 2 * delimiters s.working.flatten + slack
  queue : ∀ (i : Nat) (stf : SubTimeFrame), s.fOutputPayloads[i]? = some stf →
    stf.Correct s.fMaxHBF i
  id : s.fSTFId = BitVec.ofNat 64 s.fOutputPayloads.length

variable {max : Int} {seen : List TdcWord} {slack : Nat} {s : Builder}

theorem Holds.collected (h : Holds max seen slack s) : Holds max seen (slack + 1) s.collected := by
  have hnone : delimiters s.fInputPayloads = 0 := by
    rw [delimiters, List.countP_eq_zero]
    intro w hw
    rw [isDelimiter, h.data w hw]
    decide
  have hworking : s.collected.working.flatten = s.working.flatten ++ s.fInputPayloads := by
    rw [Builder.collected, Builder.working, Option.getD_some, List.flatten_append]
    cases s.fInputPayloads with
    | nil => rfl
    | cons w ws => simp
  have hlen : s.collected.working.length ≤ s.working.length + 1 := by
    rw [Builder.collected, Builder.working, Option.getD_some, List.length_append]
    split <;> simp
  have hcount : delimiters s.collected.working.flatten = delimiters s.working.flatten := by
    rw [hworking, delimiters, List.countP_append, ← delimiters, ← delimiters, hnone, Nat.add_zero]
  refine ⟨h.max_eq, h.max_pos, h.max_lt, ?_, nofun, ?_, h.le_max, ?_, ?_, h.queue, h.id⟩
  · rw [hworking, ← List.append_assoc]
    exact (List.append_nil _).trans h.all
  · rw [hcount]
    exact h.count
  · intro w hw
    rw [hworking, List.mem_append] at hw
    cases hw with
    | inl hold => exact h.spill w hold
    | inr hnew =>
        rw [h.data w hnew]
        decide
  · have hmessages := h.messages
    omega

/-- A sub time frame that is put into the queue. -/
theorem correct_sealed {payloads : List (List TdcWord)} {header : Header} {max : Int} {i : Nat}
    (hlength : header.length = BitVec.ofNat 32 (Header.size + wordSize * payloads.flatten.length))
    (hnum : header.numMessages = BitVec.ofNat 32 (payloads.length + 1))
    (hid : header.timeFrameId = (BitVec.ofNat 64 i).setWidth 32)
    (hfew : payloads.length + 1 < 2 ^ 32)
    (hclosed : ¬ (⟨header, payloads⟩ : SubTimeFrame).ClosedBySpillEnd →
      (delimiters payloads.flatten : Int) = max) :
    SubTimeFrame.Correct max i ⟨header, payloads⟩ where
  length_eq := by
    rw [SubTimeFrame.sum_length_parts, hlength, BitVec.toNat_ofNat, SubTimeFrame.words]
  numMessages_eq := by
    rw [hnum, BitVec.toNat_ofNat, Nat.mod_eq_of_lt hfew, SubTimeFrame.parts, List.length_cons,
      List.length_map]
  timeFrameId_eq := by
    rw [hid, BitVec.toNat_setWidth, BitVec.toNat_ofNat, Nat.mod_mod_of_dvd _ (by decide)]
  full := hclosed

theorem getElem?_concat {α : Type} {xs : List α} {x y : α} {i : Nat}
    (h : (xs ++ [x])[i]? = some y) : xs[i]? = some y ∨ i = xs.length ∧ y = x := by
  cases Nat.lt_trichotomy i xs.length with
  | inl hlt => exact .inl (by rwa [List.getElem?_append_left hlt] at h)
  | inr hge =>
      cases hge with
      | inl heq =>
          subst heq
          rw [List.getElem?_concat_length] at h
          exact .inr ⟨rfl, (Option.some.inj h).symm⟩
      | inr hgt =>
          rw [List.getElem?_eq_none (by rw [List.length_append]; exact hgt)] at h
          cases h

theorem holds_sealed {t : Builder} (hmax : t.fMaxHBF = max) (hpos : 1 ≤ t.fMaxHBF)
    (hlt : t.fMaxHBF < 2 ^ 30)
    (hall : t.fOutputPayloads.flatMap SubTimeFrame.words ++ t.working.flatten ++
      t.fInputPayloads = seen.filter isHeadValid)
    (hdata : ∀ w ∈ t.fInputPayloads, head w = DataHead) (hfew : t.working.length + 1 < 2 ^ 32)
    (hclosed : (∃ before w, t.working.flatten = before ++ [w] ∧ head w = SpillEnd) ∨
      (delimiters t.working.flatten : Int) = t.fMaxHBF)
    (hqueue : ∀ (i : Nat) (stf : SubTimeFrame), t.fOutputPayloads[i]? = some stf →
      stf.Correct t.fMaxHBF i)
    (hid : t.fSTFId = BitVec.ofNat 64 t.fOutputPayloads.length) : Holds max seen 0 t.sealed := by
  refine ⟨hmax, hpos, hlt, ?_, hdata, rfl, Int.le_trans Int.one_nonneg hpos, nofun, Nat.zero_le _,
    ?_, ?_⟩
  · rw [← hall, Builder.sealed, List.flatMap_append]
    simp [Builder.working, SubTimeFrame.words]
  · intro i stf hstf
    cases getElem?_concat hstf with
    | inl hold => exact hqueue i stf hold
    | inr hnew =>
        obtain ⟨rfl, rfl⟩ := hnew
        refine correct_sealed rfl rfl ?_ hfew fun hopen => hclosed.resolve_left hopen
        rw [hid]
  · change t.fSTFId + 1 = BitVec.ofNat 64 (t.fOutputPayloads ++ [_]).length
    rw [hid, List.length_append, List.length_singleton, BitVec.ofNat_add]
    rfl

theorem Holds.few (h : Holds max seen slack s) (hslack : slack ≤ 1) :
    s.working.length + 2 < 2 ^ 32 := by
  have hlt := h.max_lt
  have hcount := h.count
  have hle := h.le_max
  have hmessages := h.messages
  omega

theorem Holds.sealed (h : Holds max seen slack s) (hslack : slack ≤ 1)
    (hfull : s.fHBFCounter = s.fMaxHBF) : Holds max seen 0 s.sealed := by
  have hfew := h.few hslack
  exact holds_sealed h.max_eq h.max_pos h.max_lt h.all h.data (by omega)
    (.inr (h.count.symm.trans hfull)) h.queue h.id

theorem emplaceBack_ne_none (hsome : s.fWorkingPayloads ≠ none) (payload : List TdcWord) :
    (emplaceBack s payload).fWorkingPayloads ≠ none := by
  rw [emplaceBack]
  exact fun hnone => hsome (Option.map_eq_none_iff.mp hnone)

theorem working_emplaceBack (hsome : s.fWorkingPayloads ≠ none) (payload : List TdcWord) :
    (emplaceBack s payload).working = s.working ++ [payload] := by
  rw [emplaceBack, Builder.working, Builder.working]
  cases hworking : s.fWorkingPayloads with
  | none => exact absurd hworking hsome
  | some payloads => rfl

/-- A word that passes the test for valid heads is the next word of the buffers. -/
theorem Holds.all_emplaceBack (h : Holds max seen slack s) (hsome : s.fWorkingPayloads ≠ none)
    (hinput : s.fInputPayloads = []) {w : TdcWord} (hvalid : isHeadValid w = true) :
    s.fOutputPayloads.flatMap SubTimeFrame.words ++ (emplaceBack s [w]).working.flatten ++
      s.fInputPayloads = (seen ++ [w]).filter isHeadValid := by
  have hall := h.all
  rw [hinput, List.append_nil] at hall ⊢
  rw [working_emplaceBack hsome, List.flatten_append, List.filter_append, ← hall,
    List.filter_cons_of_pos hvalid, List.append_assoc]
  rfl

/-- The word of a spill end is the last one of its sub time frame. -/
theorem Holds.sealed_spillEnd (h : Holds max seen slack s) (hslack : slack ≤ 1)
    (hsome : s.fWorkingPayloads ≠ none) (hinput : s.fInputPayloads = []) {w : TdcWord}
    (hw : head w = SpillEnd) : Holds max (seen ++ [w]) 0 (emplaceBack s [w]).sealed := by
  have hvalid : isHeadValid w = true := by
    rw [isHeadValid, hw]
    decide
  have hfew := h.few hslack
  have hworking := working_emplaceBack hsome [w]
  refine holds_sealed h.max_eq h.max_pos h.max_lt (h.all_emplaceBack hsome hinput hvalid) h.data ?_
    (.inl ⟨s.working.flatten, w, ?_, hw⟩) h.queue h.id
  · rw [hworking, List.length_append, List.length_singleton]
    omega
  · rw [hworking, List.flatten_append]
    rfl

theorem head_of_delimiter {w : TdcWord} (hw : head w = Heartbeat ∨ head w = ErrorRecovery) :
    isHeadValid w = true ∧ isDelimiter w = true ∧ head w ≠ SpillEnd := by
  rw [isHeadValid, isDelimiter]
  cases hw with
  | inl hheart => rw [hheart]; decide
  | inr herror => rw [herror]; decide

/-- A delimiter that is counted. -/
theorem Holds.delimiter (h : Holds max seen 1 s) (hsome : s.fWorkingPayloads ≠ none)
    (hinput : s.fInputPayloads = []) (hroom : s.fHBFCounter < s.fMaxHBF) {w : TdcWord}
    (hw : head w = Heartbeat ∨ head w = ErrorRecovery) :
    Holds max (seen ++ [w]) 0 { emplaceBack s [w] with fHBFCounter := s.fHBFCounter + 1 } := by
  obtain ⟨hvalid, hdelimiter, hnot⟩ := head_of_delimiter hw
  have hworking := working_emplaceBack hsome [w]
  have hcount : delimiters (emplaceBack s [w]).working.flatten =
      delimiters s.working.flatten + 1 := by
    rw [hworking, List.flatten_append, delimiters, List.countP_append]
    simp [delimiters, hdelimiter]
  refine ⟨h.max_eq, h.max_pos, h.max_lt, h.all_emplaceBack hsome hinput hvalid, h.data, ?_,
    hroom, ?_, ?_, h.queue, h.id⟩
  · change s.fHBFCounter + 1 = (delimiters (emplaceBack s [w]).working.flatten : Int)
    rw [hcount, h.count]
    rfl
  · intro v hv
    change v ∈ (emplaceBack s [w]).working.flatten at hv
    rw [hworking, List.flatten_append, List.mem_append] at hv
    cases hv with
    | inl hold => exact h.spill v hold
    | inr hnew =>
        have hsame : v = w := by simpa using hnew
        rw [hsame]
        exact hnot
  · change (emplaceBack s [w]).working.length ≤
      2 * delimiters (emplaceBack s [w]).working.flatten + 0
    rw [hcount, hworking, List.length_append, List.length_singleton]
    have hmessages := h.messages
    omega

/-- The data before a closing word is in its message, and there is room for a delimiter. -/
structure Filled (max : Int) (seen : List TdcWord) (split : Int) (s : Builder) : Prop where
  holds : Holds max seen 1 s
  working : s.fWorkingPayloads ≠ none
  input : s.fInputPayloads = []
  room : s.fHBFCounter < s.fMaxHBF
  split_eq : s.fSplitMethod = split

/-- Split method 0 never waits with a full count. -/
def Waiting (s : Builder) : Prop := s.fSplitMethod = 0 → s.fHBFCounter < s.fMaxHBF

theorem Holds.nonneg (h : Holds max seen slack s) : 0 ≤ s.fHBFCounter := by
  rw [h.count]
  exact Int.natCast_nonneg _

theorem Holds.isFull_eq (h : Holds max seen slack s) :
    isFull s = .ok (decide (s.fHBFCounter = s.fMaxHBF)) :=
  HulStrTdcSTFBuilder.isFull_eq h.max_pos h.nonneg h.le_max

theorem Holds.finalizeInFill (h : Holds max seen 1 s) (hsome : s.fWorkingPayloads ≠ none)
    (hinput : s.fInputPayloads = []) (hwait : Waiting s) :
    ∃ s', finalizeInFill s = .ok s' ∧ Filled max seen s.fSplitMethod s' := by
  rw [HulStrTdcSTFBuilder.finalizeInFill]
  by_cases hsplit : s.fSplitMethod = 0
  · rw [if_neg (not_not_intro hsplit)]
    exact ⟨s, rfl, h, hsome, hinput, hwait hsplit, rfl⟩
  · rw [if_pos hsplit, h.isFull_eq]
    by_cases hfull : s.fHBFCounter = s.fMaxHBF
    · have hsealed := h.sealed (Nat.le_refl 1) hfull
      refine ⟨{ s.sealed with fWorkingPayloads := some [] }, ?_, ?_, nofun, hinput,
        Int.lt_of_lt_of_le Int.zero_lt_one h.max_pos, rfl⟩
      · have hnew := newData_eq hsealed.max_pos hsealed.max_lt
        rw [decide_eq_true hfull]
        change (finalizeSTF s >>= newData) = _
        rw [finalizeSTF_eq hsome]
        exact hnew
      · exact ⟨hsealed.max_eq, hsealed.max_pos, hsealed.max_lt, hsealed.all, hsealed.data, rfl,
          hsealed.le_max, nofun, Nat.zero_le _, hsealed.queue, hsealed.id⟩
    · rw [decide_eq_false hfull]
      have hle := h.le_max
      exact ⟨s, rfl, h, hsome, hinput, by omega, rfl⟩

/-- What `FillData` does with the words that have waited. -/
theorem Holds.fillData (h : Holds max seen 0 s) (hwait : Waiting s) (w : TdcWord)
    (isSpillEnd : Bool) :
    ∃ s', fillData s [] w isSpillEnd = .ok (if isSpillEnd then s' else emplaceBack s' [w]) ∧
      Filled max seen s.fSplitMethod s' := by
  obtain ⟨s', hfinal, hfilled⟩ := h.collected.finalizeInFill nofun rfl hwait
  refine ⟨s', ?_, hfilled⟩
  have hcollected : (if (s.fInputPayloads ++ []).isEmpty then
      { s with fInputPayloads := [], fWorkingPayloads := some s.working }
      else emplaceBack { s with fInputPayloads := [], fWorkingPayloads := some s.working }
        (s.fInputPayloads ++ [])) = s.collected := by
    rw [List.append_nil, Builder.collected]
    cases s.fInputPayloads with
    | nil => simp
    | cons v vs => rfl
  have hnew : newData { s with fInputPayloads := [] } =
      .ok { s with fInputPayloads := [], fWorkingPayloads := some s.working } :=
    @newData_eq { s with fInputPayloads := [] } h.max_pos h.max_lt
  rw [HulStrTdcSTFBuilder.fillData, hnew]
  change (HulStrTdcSTFBuilder.finalizeInFill _ >>= _) = _
  rw [hcollected, hfinal]
  rfl

theorem Filled.countDelimiter {split : Int} {w : TdcWord} (h : Filled max seen split s)
    (hw : head w = Heartbeat ∨ head w = ErrorRecovery) :
    ∃ s', countDelimiter (emplaceBack s [w]) w = .ok s' ∧ Holds max (seen ++ [w]) 0 s' ∧
      Waiting s' ∧ s'.fSplitMethod = split := by
  have hcounted := h.holds.delimiter h.working h.input h.room hw
  have hfull := hcounted.isFull_eq
  rw [HulStrTdcSTFBuilder.countDelimiter, if_pos hw]
  generalize ht : ({ emplaceBack s [w] with fHBFCounter := s.fHBFCounter + 1 } : Builder) = t
    at hcounted hfull
  have hsame : t.fSplitMethod = s.fSplitMethod ∧ t.fWorkingPayloads ≠ none := by
    rw [← ht]
    exact ⟨rfl, emplaceBack_ne_none h.working [w]⟩
  change ∃ s', (let s' := ({ emplaceBack s [w] with fHBFCounter := s.fHBFCounter + 1 } : Builder)
    if s'.fSplitMethod = 0 then isFull s' >>= fun full =>
      if full then finalizeSTF s' else .ok s' else .ok s') = Except.ok s' ∧ _
  rw [ht]
  dsimp only
  by_cases hsplit : t.fSplitMethod = 0
  · rw [if_pos hsplit, hfull]
    by_cases hmax : t.fHBFCounter = t.fMaxHBF
    · have hsealed := hcounted.sealed (Nat.zero_le 1) hmax
      rw [decide_eq_true hmax]
      exact ⟨_, finalizeSTF_eq hsame.2, hsealed,
        fun _ => Int.lt_of_lt_of_le Int.zero_lt_one hsealed.max_pos, hsame.1.trans h.split_eq⟩
    · rw [decide_eq_false hmax]
      have hle := hcounted.le_max
      exact ⟨t, rfl, hcounted, fun _ => by omega, hsame.1.trans h.split_eq⟩
  · rw [if_neg hsplit]
    exact ⟨t, rfl, hcounted, fun hzero => absurd hzero hsplit, hsame.1.trans h.split_eq⟩

theorem Filled.closeSpill {split : Int} {w : TdcWord} (h : Filled max seen split s)
    (hw : head w = SpillEnd) :
    closeSpill s w = .ok (emplaceBack s [w]).sealed := by
  have hsame : ({ s with fInputPayloads := [], fWorkingPayloads := some s.working } : Builder) =
      s := by
    obtain ⟨payloads, hworking⟩ := Option.ne_none_iff_exists'.mp h.working
    rw [Builder.working, ← h.input, hworking, Option.getD_some, ← hworking]
  have hnew : newData { s with fInputPayloads := [] } = .ok s :=
    (@newData_eq { s with fInputPayloads := [] } h.holds.max_pos h.holds.max_lt).trans
      (congrArg Except.ok hsame)
  have hfull : isFull (emplaceBack s [w]) = .ok false := by
    have hroom := h.room
    have hnot : ¬ s.fHBFCounter = s.fMaxHBF := by omega
    exact h.holds.isFull_eq.trans (congrArg Except.ok (decide_eq_false hnot))
  have hkeep : HulStrTdcSTFBuilder.finalizeInFill (emplaceBack s [w]) =
      .ok (emplaceBack s [w]) := by
    rw [HulStrTdcSTFBuilder.finalizeInFill, hfull]
    split <;> rfl
  rw [HulStrTdcSTFBuilder.closeSpill, if_pos hw, HulStrTdcSTFBuilder.fillData, hnew, h.input]
  change (HulStrTdcSTFBuilder.finalizeInFill (emplaceBack s [w]) >>= fun s' => .ok s') >>=
    finalizeSTF = _
  rw [hkeep]
  exact finalizeSTF_eq (emplaceBack_ne_none h.working [w])

theorem Holds.closeSegment (h : Holds max seen 0 s) (hwait : Waiting s) {w : TdcWord}
    (hw : head w = Heartbeat ∨ head w = ErrorRecovery ∨ head w = SpillEnd) :
    ∃ s', closeSegment s [] w = .ok s' ∧ Holds max (seen ++ [w]) 0 s' ∧ Waiting s' := by
  obtain ⟨filled, hfill, hfilled⟩ := h.fillData hwait w (head w == SpillEnd)
  rw [HulStrTdcSTFBuilder.closeSegment, hfill]
  by_cases hspill : head w = SpillEnd
  · have hclosed :=
      hfilled.holds.sealed_spillEnd (Nat.le_refl 1) hfilled.working hfilled.input hspill
    refine ⟨_, ?_, hclosed, fun _ => Int.lt_of_lt_of_le Int.zero_lt_one hclosed.max_pos⟩
    have hcount : HulStrTdcSTFBuilder.countDelimiter filled w = .ok filled := by
      rw [HulStrTdcSTFBuilder.countDelimiter, hspill, if_neg (by decide)]
    rw [if_pos (beq_iff_eq.mpr hspill)]
    change (HulStrTdcSTFBuilder.countDelimiter filled w >>= fun s' =>
      HulStrTdcSTFBuilder.closeSpill s' w) = _
    rw [hcount]
    exact hfilled.closeSpill hspill
  · have hdelimiter : head w = Heartbeat ∨ head w = ErrorRecovery := by
      cases hw with
      | inl hheart => exact .inl hheart
      | inr hrest => exact .inr (hrest.resolve_right hspill)
    obtain ⟨s', hcount, hholds, hwaits, -⟩ := hfilled.countDelimiter hdelimiter
    refine ⟨s', ?_, hholds, hwaits⟩
    rw [if_neg fun hbeq => hspill (beq_iff_eq.mp hbeq)]
    change (HulStrTdcSTFBuilder.countDelimiter (emplaceBack filled [w]) w >>= fun s' =>
      HulStrTdcSTFBuilder.closeSpill s' w) = _
    rw [hcount]
    exact if_neg hspill

/-- A word that closes no segment waits, if it is data, or is dropped. -/
theorem Holds.carry (h : Holds max seen 0 s) {w : TdcWord} {kept : List TdcWord}
    (hkept : [w].filter isHeadValid = kept) (hdata : ∀ v ∈ kept, head v = DataHead) :
    Holds max (seen ++ [w]) 0 { s with fInputPayloads := s.fInputPayloads ++ kept } where
  max_eq := h.max_eq
  max_pos := h.max_pos
  max_lt := h.max_lt
  all := by
    rw [List.filter_append, ← h.all, hkept]
    exact (List.append_assoc _ _ _).symm
  data := by
    intro v hv
    cases List.mem_append.mp hv with
    | inl hold => exact h.data v hold
    | inr hnew => exact hdata v hnew
  count := h.count
  le_max := h.le_max
  spill := h.spill
  messages := h.messages
  queue := h.queue
  id := h.id

/-- One word of the stream. -/
theorem Holds.step (h : Holds max seen 0 s) (hwait : Waiting s) (w : TdcWord) :
    ∃ s', loop s [] [w] = .ok s' ∧ Holds max (seen ++ [w]) 0 s' ∧ Waiting s' := by
  rw [loop]
  by_cases hvalid : isHeadValid w = true
  · rw [if_neg (by simp [hvalid])]
    by_cases hclosing : head w = Heartbeat ∨ head w = ErrorRecovery ∨ head w = SpillEnd
    · obtain ⟨s', hclose, hholds, hwaits⟩ := h.closeSegment hwait hclosing
      refine ⟨s', ?_, hholds, hwaits⟩
      rw [if_pos hclosing, hclose]
      change loop s' [] [] = _
      rw [loop, List.append_nil]
    · have hdata : head w = DataHead := by
        simp only [isHeadValid, Bool.or_eq_true, beq_iff_eq] at hvalid
        grind
      rw [if_neg hclosing]
      refine ⟨_, rfl, h.carry (List.filter_cons_of_pos hvalid) ?_, hwait⟩
      intro v hv
      rw [List.mem_singleton.mp hv]
      exact hdata
  · rw [if_pos (by simpa using hvalid), List.append_nil, loop]
    exact ⟨_, rfl, h.carry (List.filter_cons_of_neg hvalid) nofun, hwait⟩

/-- The words of a stream. -/
theorem Holds.loop (h : Holds max seen 0 s) (hwait : Waiting s) (ws : List TdcWord) :
    ∃ s', loop s [] ws = .ok s' ∧ Holds max (seen ++ ws) 0 s' := by
  induction ws generalizing seen s with
  | nil =>
      rw [List.append_nil]
      refine ⟨s, ?_, h⟩
      rw [HulStrTdcSTFBuilder.loop, List.append_nil]
  | cons w ws ih =>
      obtain ⟨s₁, hstep, hholds, hwaits⟩ := h.step hwait w
      obtain ⟨s', hrest, hall⟩ := ih hholds hwaits
      refine ⟨s', ?_, by rwa [List.append_cons]⟩
      rw [← List.singleton_append, loop_append, hstep]
      exact hrest

theorem holds_initTask (opts : Options) (hpos : 1 ≤ opts.maxHBF) (hlt : opts.maxHBF < 2 ^ 30) :
    Holds opts.maxHBF [] 0 (initTask opts) where
  max_eq := rfl
  max_pos := hpos
  max_lt := hlt
  all := rfl
  data := nofun
  count := rfl
  le_max := Int.le_trans Int.one_nonneg hpos
  spill := nofun
  messages := Nat.le_refl 0
  queue := nofun
  id := rfl

end Invariant

/-- The words that wait in the builder. -/
def Builder.buffered (s : Builder) : List TdcWord := s.working.flatten ++ s.fInputPayloads

/-- Streams of whole words, cut in any two ways. -/
theorem sub_time_frames_of_stream (opts : Options) (hpos : 1 ≤ opts.maxHBF)
    (hlt : opts.maxHBF < 2 ^ 30) (msgs msgs' : List Bytes)
    (hwhole : ∀ msg ∈ msgs, wordSize ∣ msg.length) (hwhole' : ∀ msg ∈ msgs', wordSize ∣ msg.length)
    (hstream : msgs.flatten = msgs'.flatten) :
    ∃ stfs s, run (initTask opts) msgs = .ok (stfs, s) ∧ run (initTask opts) msgs' = .ok (stfs, s) ∧
      stfs.flatMap SubTimeFrame.words ++ s.buffered =
        (tdcWords msgs.flatten).filter isHeadValid ∧
      ∀ (i : Nat) (stf : SubTimeFrame), stfs[i]? = some stf → stf.Correct opts.maxHBF i := by
  obtain ⟨s, hloop, hholds⟩ := (holds_initTask opts hpos hlt).loop
    (fun _ => Int.lt_of_lt_of_le Int.zero_lt_one hpos) (tdcWords msgs.flatten)
  refine ⟨s.fOutputPayloads, { s with fOutputPayloads := [] }, ?_, ?_, ?_, ?_⟩
  · rw [run_eq_loop rfl, flatMap_tdcWords hwhole, hloop]
    rfl
  · rw [run_eq_loop rfl, flatMap_tdcWords hwhole', ← hstream, hloop]
    rfl
  · rw [← List.nil_append (tdcWords msgs.flatten), ← hholds.all, List.append_assoc]
    rfl
  · intro i stf hstf
    rw [← hholds.max_eq]
    exact hholds.queue i stf hstf

section Inputs

/-- Five words of 64 bits are eight words of the builder, and the first of them alone is
one word and a rest that is dropped. -/
theorem sub_time_frames_depend_on_cuts_of_64_bit_words :
    ¬ (∀ msgs msgs' : List Bytes, (∀ msg ∈ msgs, 8 ∣ msg.length) →
      (∀ msg ∈ msgs', 8 ∣ msg.length) → msgs.flatten = msgs'.flatten →
      (run (initTask {}) msgs).map (fun result => result.1) =
        (run (initTask {}) msgs').map (fun result => result.1)) ∧
    run (initTask { maxHBF := 2 ^ 30 }) [List.replicate 5 0xff] = .error .undefined := by
  constructor
  · intro hsame
    have hcounts := congrArg (Except.map List.length)
      (hsame [List.replicate 40 0xff] [List.replicate 8 0xff, List.replicate 32 0xff]
        (by decide) (by decide) (by decide))
    revert hcounts
    decide
  · decide

/-- A heartbeat in two messages and in one. -/
theorem sub_time_frames_of_stream_two_words :
    ∃ stfs s, run (initTask {}) [[0, 0, 0, 0, 0xd0], [0, 0, 0, 0, 0xf0]] = .ok (stfs, s) ∧
      run (initTask {}) [[0, 0, 0, 0, 0xd0, 0, 0, 0, 0, 0xf0]] = .ok (stfs, s) ∧
      stfs.length = 1 ∧ s.buffered = [] ∧
      ∀ (i : Nat) (stf : SubTimeFrame), stfs[i]? = some stf → stf.Correct 1 i := by
  obtain ⟨stfs, s, hrun, hrun', -, hcorrect⟩ := sub_time_frames_of_stream {} (by decide) (by decide)
    [[0, 0, 0, 0, 0xd0], [0, 0, 0, 0, 0xf0]] [[0, 0, 0, 0, 0xd0, 0, 0, 0, 0, 0xf0]]
    (by decide) (by decide) (by decide)
  refine ⟨stfs, s, hrun, hrun', ?_, ?_, hcorrect⟩
  · have hlength := congrArg (Except.map fun result => result.1.length) hrun
    exact (Except.ok.inj hlength).symm
  · cases hrun
    rfl

end Inputs

end HulStrTdcSTFBuilder
end Userworks
