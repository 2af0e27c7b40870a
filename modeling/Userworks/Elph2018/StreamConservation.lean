import Userworks.Elph2018.SubTimeFrameBuilder
import Mathlib.Data.List.Induction

/-!
What the builder makes of the stream of its payloads. As long as every payload holds
at most one heartbeat header, and bytes behind it, the messages are the stream up to
the last header: the bytes that no header has closed wait in the queue, from
`fFirst` on.
-/
namespace Userworks
namespace SubTimeFrameBuilder

/-- The offsets below a bound at which a search from `i` on finds the magic number. -/
def scan (p : Bytes) (bound : Nat) : Nat → Nat → List Nat
  | 0, _ => []
  | fuel + 1, i =>
      if i < bound then
        if field 8 i p = HBF.Magic then i :: scan p bound fuel (i + HBF.Header.size)
        else scan p bound fuel (i + 1)
      else []

/-- The heartbeat headers of a payload, as far as they are whole. -/
def headers (p : Bytes) : List Nat :=
  scan p (p.length + 1 - HBF.Header.size) (p.length + 1) 0

/-- The length of the stream and the end of its last header. -/
def endStep (e : Nat × Nat) (p : Bytes) : Nat × Nat :=
  (e.1 + p.length,
    match (headers p).getLast? with
    | some i => e.1 + i + HBF.Header.size
    | none => e.2)

def streamEnd (ps : List Bytes) : Nat := (ps.foldl endStep (0, 0)).2

def headerCount (ps : List Bytes) : Nat := (ps.map fun p => (headers p).length).sum

/-- The stream up to and including its last header. -/
def closed (ps : List Bytes) : Bytes := ps.flatten.take (streamEnd ps)

/-- No header starts in a payload and ends behind it. -/
def NoStraddle (ps : List Bytes) : Prop :=
  ∀ before p after, ps = before ++ p :: after → ∀ i < p.length, p.length < i + HBF.Header.size →
    field 8 i (p ++ after.flatten) ≠ HBF.Magic

/-- A header at the offset `i` of a payload does no harm: there are bytes behind it, and
the numbers stay in the range of their types. -/
structure HarmlessHeader (fMaxHBF : Int) (before : List Bytes) (p : Bytes) (i : Nat) : Prop where
  behind : i + HBF.Header.size < p.length
  index : i + HBF.Header.size < 2 ^ 32
  size : (before.flatten.length - streamEnd before + i) % 2 ^ 32 < 2 ^ 31
  count : headerCount before + 1 < 2 ^ 31
  max : 1 ≤ fMaxHBF ∧ fMaxHBF < 2 ^ 30

/-- A payload behind others that does no harm: the index of the search has room for its
bytes, and it has at most one header. -/
def Harmless (fMaxHBF : Int) (before : List Bytes) (p : Bytes) : Prop :=
  HBF.Header.size ≤ p.length ∧ p.length < 2 ^ 32 + HBF.Header.size ∧
    (headers p = [] ∨ ∃ i, headers p = [i] ∧ HarmlessHeader fMaxHBF before p i)

section Streams

theorem foldl_endStep_fst (ps : List Bytes) :
    (ps.foldl endStep (0, 0)).1 = ps.flatten.length := by
  suffices h : ∀ e, (ps.foldl endStep e).1 = e.1 + ps.flatten.length by
    rw [h, Nat.zero_add]
  induction ps with
  | nil => exact fun e => rfl
  | cons p ps ih =>
      intro e
      rw [List.foldl_cons, ih, endStep, List.flatten_cons, List.length_append, Nat.add_assoc]

theorem streamEnd_concat (ps : List Bytes) (p : Bytes) :
    streamEnd (ps ++ [p]) =
      match (headers p).getLast? with
      | some i => ps.flatten.length + i + HBF.Header.size
      | none => streamEnd ps := by
  rw [streamEnd, List.foldl_append, List.foldl_cons, List.foldl_nil, endStep, foldl_endStep_fst]
  rfl

theorem headerCount_concat (ps : List Bytes) (p : Bytes) :
    headerCount (ps ++ [p]) = headerCount ps + (headers p).length := by
  simp [headerCount]

theorem flatten_concat (ps : List Bytes) (p : Bytes) : (ps ++ [p]).flatten = ps.flatten ++ p := by
  simp

end Streams

section Search

/-- The search of the code stops one byte before the last place for a header. -/
theorem scan_pred {p : Bytes} {bound fuel i : Nat} (h : bound ∉ scan p (bound + 1) fuel i) :
    scan p bound fuel i = scan p (bound + 1) fuel i := by
  induction fuel generalizing i with
  | zero => rfl
  | succ fuel ih =>
      rw [scan] at h ⊢
      rw [scan]
      by_cases hi : i < bound
      · have hi' : i < bound + 1 := Nat.lt_succ_of_lt hi
        rw [if_pos hi'] at h
        rw [if_pos hi, if_pos hi']
        split
        · rename_i hmagic
          rw [if_pos hmagic, List.mem_cons, not_or] at h
          rw [ih h.2]
        · rename_i hmagic
          rw [if_neg hmagic] at h
          rw [ih h]
      · rw [if_neg hi]
        by_cases heq : i = bound
        · subst heq
          rw [if_pos (Nat.lt_succ_self i)] at h ⊢
          split
          · rename_i hmagic
            rw [if_pos hmagic] at h
            exact absurd (List.mem_cons_self ..) h
          · cases fuel with
            | zero => rfl
            | succ fuel => rw [scan, if_neg (Nat.lt_irrefl _)]
        · rw [if_neg (by omega)]

theorem scan_eq_headers {p : Bytes} (hsize : HBF.Header.size ≤ p.length)
    (hend : p.length - HBF.Header.size ∉ headers p) :
    scan p (p.length - HBF.Header.size) (p.length + 1) 0 = headers p := by
  have hbound : p.length + 1 - HBF.Header.size = p.length - HBF.Header.size + 1 := by omega
  rw [headers, hbound] at hend ⊢
  exact scan_pred hend

/-- The index does not wrap if it has room for the last place that is looked at, and for
the ends of the headers. -/
theorem search_eq_foldlM (word1 : BitVec 64) {p : Bytes}
    (hsmall : p.length < 2 ^ 32 + HBF.Header.size) {fuel i : Nat} (hi : i ≤ p.length)
    (hfuel : p.length < i + fuel)
    (hends : ∀ j ∈ scan p (p.length - HBF.Header.size) fuel i, j + HBF.Header.size < 2 ^ 32)
    (s : Builder) :
    search word1 p fuel i s =
      (scan p (p.length - HBF.Header.size) fuel i).foldlM (closeFrame word1 p) s := by
  have hsize : HBF.Header.size = 24 := rfl
  induction fuel generalizing i s with
  | zero => omega
  | succ fuel ih =>
      rw [scan] at hends
      rw [search, scan]
      by_cases hbound : i < p.length - HBF.Header.size
      · rw [if_pos hbound] at hends
        rw [if_pos hbound, if_pos hbound]
        by_cases hmagic : field 8 i p = HBF.Magic
        · rw [if_pos hmagic, List.forall_mem_cons] at hends
          rw [if_pos hmagic, if_pos hmagic, List.foldlM_cons, Nat.mod_eq_of_lt hends.1]
          cases closeFrame word1 p s i with
          | error fault => rfl
          | ok next => exact ih (by omega) (by omega) hends.2 next
        · have hwrap : (i + 1) % 2 ^ 32 = i + 1 := Nat.mod_eq_of_lt (by omega)
          rw [if_neg hmagic] at hends
          rw [if_neg hmagic, if_neg hmagic, hwrap]
          exact ih (by omega) (by omega) hends s
      · rw [if_neg hbound, if_neg hbound]
        rfl

/-- Headers with bytes behind them, and with ends that the index can hold, are all found. -/
theorem search_eq_headers (word1 : BitVec 64) {p : Bytes} (hsize : HBF.Header.size ≤ p.length)
    (hsmall : p.length < 2 ^ 32 + HBF.Header.size)
    (hends : ∀ j ∈ headers p, j + HBF.Header.size < p.length ∧ j + HBF.Header.size < 2 ^ 32)
    (s : Builder) :
    search word1 p (p.length + 1) 0 s = (headers p).foldlM (closeFrame word1 p) s := by
  have hlast : p.length - HBF.Header.size ∉ headers p := fun hmem => by
    have hbehind := (hends _ hmem).1
    omega
  have hscan := scan_eq_headers hsize hlast
  rw [search_eq_foldlM word1 hsmall (Nat.zero_le _) (by omega), hscan]
  rw [hscan]
  exact fun j hj => (hends j hj).2

end Search

section Closing

theorem sizeBefore_concat (queue : List Bytes) (p : Bytes) :
    sizeBefore (queue ++ [p]) = queue.flatten.length := by
  induction queue with
  | nil => rfl
  | cons q queue ih =>
      rw [List.flatten_cons, List.length_append, ← ih]
      cases queue <;> rfl

/-- The payloads in front of the last one are copied from the offset into the first. -/
theorem copyBefore_concat {srcOffset : Nat} {queue : List Bytes} (p : Bytes)
    (hfirst : srcOffset ≤ (queue.headD []).length) :
    copyBefore srcOffset (queue ++ [p]) = .ok (queue.flatten.drop srcOffset) := by
  induction queue generalizing srcOffset with
  | nil => rw [List.flatten_nil, List.drop_nil]; rfl
  | cons q queue ih =>
      have htail := @ih 0 (Nat.zero_le _)
      have hle : srcOffset ≤ q.length := hfirst
      have hq : ¬q.length < srcOffset := Nat.not_lt.mpr hle
      rw [List.flatten_cons, List.drop_append_of_le_length hle]
      cases queue with
      | nil =>
          rw [List.cons_append, List.nil_append, copyBefore, if_neg hq]
          rfl
      | cons r queue =>
          rw [List.cons_append] at htail
          rw [List.cons_append, List.cons_append, copyBefore, if_neg hq, htail]
          rfl

theorem totalSize_nonneg {s : Builder} {i n : Nat}
    (hn : (sizeBefore s.fInputPayloads + i - s.fFirst : Int) = n) (hsmall : n % 2 ^ 32 < 2 ^ 31) :
    ¬totalSize s i < 0 := by
  rw [totalSize, hn, BitVec.ofInt_natCast, BitVec.toInt_eq_toNat_of_lt]
  · omega
  · rw [BitVec.toNat_ofNat]
    omega

theorem countHBF_spec {word1 : BitVec 64} {s : Builder} {payloads : List Bytes}
    (hcount : IsInt (s.fHBFCounter + 1)) (hmax : s.fMaxHBF ≠ 0) :
    ∃ s', countHBF word1 s payloads = .ok s' ∧ s'.fMaxHBF = s.fMaxHBF ∧
      s'.fHBFCounter = s.fHBFCounter + 1 ∧ s'.fFirst = s.fFirst ∧
      s'.fInputPayloads = s.fInputPayloads ∧
      appended s' = ((s.fOutputPayloads.flatMap SubTimeFrame.payloads) ++ payloads).flatten := by
  rw [countHBF, if_neg (not_or.mpr ⟨not_not.mpr hcount, hmax⟩)]
  split
  · refine ⟨_, rfl, rfl, rfl, rfl, rfl, ?_⟩
    simp [appended]
  · exact ⟨_, rfl, rfl, rfl, rfl, rfl, rfl⟩

theorem working_spec {s : Builder} (hmax : 1 ≤ s.fMaxHBF ∧ s.fMaxHBF < 2 ^ 30) :
    working s = .ok (s.fWorkingPayloads.getD []) := by
  rw [working]
  cases s.fWorkingPayloads with
  | some payloads => rfl
  | none =>
      have hint : IsInt (s.fMaxHBF * 2 + 1) := ⟨by omega, by omega⟩
      dsimp only
      rw [if_neg (not_not.mpr hint), if_neg (by omega)]
      rfl

end Closing

/-- After the payloads `ps`: what was appended is closed, and what is left of the stream
waits in the queue from `fFirst` on. -/
structure Invariant (fMaxHBF : Int) (ps : List Bytes) (s : Builder) : Prop where
  max : s.fMaxHBF = fMaxHBF
  count : s.fHBFCounter = headerCount ps
  output : appended s = closed ps
  first : s.fFirst ≤ (s.fInputPayloads.headD []).length
  waiting : s.fInputPayloads.flatten.drop s.fFirst = ps.flatten.drop (streamEnd ps)
  streamEnd_le : streamEnd ps ≤ ps.flatten.length

theorem invariant_start (fMaxHBF : Int) : Invariant fMaxHBF [] { fMaxHBF } where
  max := rfl
  count := rfl
  output := rfl
  first := Nat.le_refl 0
  waiting := rfl
  streamEnd_le := Nat.le_refl 0

section Steps

variable {fMaxHBF : Int} {ps : List Bytes} {s : Builder} {p : Bytes}

theorem Invariant.first_le (h : Invariant fMaxHBF ps s) :
    s.fFirst ≤ s.fInputPayloads.flatten.length := by
  have hfirst := h.first
  cases hqueue : s.fInputPayloads with
  | nil =>
      rw [hqueue] at hfirst
      exact hfirst
  | cons q queue =>
      rw [hqueue] at hfirst
      rw [List.flatten_cons, List.length_append]
      exact Nat.le_trans hfirst (Nat.le_add_right _ _)

/-- A payload joins the queue; what waits is followed by its bytes. -/
theorem Invariant.drop_concat (h : Invariant fMaxHBF ps s) (p : Bytes) :
    (s.fInputPayloads ++ [p]).flatten.drop s.fFirst = ps.flatten.drop (streamEnd ps) ++ p := by
  rw [flatten_concat, List.drop_append_of_le_length h.first_le, h.waiting]

theorem Invariant.first_concat (h : Invariant fMaxHBF ps s) (p : Bytes) :
    s.fFirst ≤ ((s.fInputPayloads ++ [p]).headD []).length := by
  have hfirst := h.first
  cases hqueue : s.fInputPayloads with
  | nil =>
      rw [hqueue] at hfirst
      exact Nat.le_trans hfirst (Nat.zero_le _)
  | cons q queue =>
      rw [hqueue] at hfirst
      exact hfirst

/-- A payload without a header waits. -/
theorem Invariant.wait (h : Invariant fMaxHBF ps s) (hnone : headers p = []) :
    Invariant fMaxHBF (ps ++ [p]) { s with fInputPayloads := s.fInputPayloads ++ [p] } := by
  have hend : streamEnd (ps ++ [p]) = streamEnd ps := by
    rw [streamEnd_concat, hnone]
    rfl
  have hle := h.streamEnd_le
  exact
    { max := h.max
      count := by rw [headerCount_concat, hnone, List.length_nil, Nat.add_zero]; exact h.count
      output := by
        rw [closed, hend, flatten_concat, List.take_append_of_le_length hle]
        exact h.output
      first := h.first_concat p
      waiting := by
        rw [hend, flatten_concat ps, List.drop_append_of_le_length hle]
        exact h.drop_concat p
      streamEnd_le := by
        rw [hend, flatten_concat, List.length_append]
        omega }

/-- The bytes in front of a header `i` of the next payload fit an `int`. -/
theorem Invariant.totalSize_nonneg (h : Invariant fMaxHBF ps s) {i : Nat}
    (hsize : (ps.flatten.length - streamEnd ps + i) % 2 ^ 32 < 2 ^ 31) :
    ¬totalSize { s with fInputPayloads := s.fInputPayloads ++ [p] } i < 0 := by
  refine SubTimeFrameBuilder.totalSize_nonneg ?_ hsize
  have hlength := congrArg List.length h.waiting
  have hle := h.first_le
  have hend_le := h.streamEnd_le
  rw [List.length_drop, List.length_drop] at hlength
  rw [sizeBefore_concat]
  dsimp only
  omega

/-- A body without bytes is not sent. -/
theorem flatten_unless_nil (payloads : List Bytes) (body : Bytes) :
    (if body = [] then payloads else payloads ++ [body]).flatten = payloads.flatten ++ body := by
  split
  · next hnil => rw [hnil, List.append_nil]
  · exact flatten_concat _ _

/-- A header closes what has waited and the bytes in front of it. -/
theorem Invariant.close (h : Invariant fMaxHBF ps s) (word1 : BitVec 64) {i : Nat}
    (hheaders : headers p = [i]) (hi : HarmlessHeader fMaxHBF ps p i) :
    ∃ s', closeFrame word1 p { s with fInputPayloads := s.fInputPayloads ++ [p] } i = .ok s' ∧
      Invariant fMaxHBF (ps ++ [p]) s' := by
  obtain ⟨hbehind, -, hsize, hcount, hmax⟩ := hi
  have hsum : i + HBF.Header.size ≤ p.length := Nat.le_of_lt hbehind
  have hend : streamEnd (ps ++ [p]) = ps.flatten.length + (i + HBF.Header.size) := by
    rw [streamEnd_concat, hheaders, ← Nat.add_assoc]
    rfl
  have hworking : working { s with fInputPayloads := s.fInputPayloads ++ [p] } =
      .ok (s.fWorkingPayloads.getD []) := working_spec (h.max.symm ▸ hmax)
  have htotal : ¬totalSize { s with fInputPayloads := s.fInputPayloads ++ [p] } i < 0 :=
    h.totalSize_nonneg hsize
  have hcopy : copyBefore s.fFirst (s.fInputPayloads ++ [p]) =
      .ok (ps.flatten.drop (streamEnd ps)) := by
    rw [copyBefore_concat p h.first, h.waiting]
  have hcounter : IsInt (s.fHBFCounter + 1) := by
    rw [h.count]
    exact ⟨by omega, by omega⟩
  let msgBody := ps.flatten.drop (streamEnd ps) ++ p.take i
  let payloads := if msgBody = [] then s.fWorkingPayloads.getD []
    else s.fWorkingPayloads.getD [] ++ [msgBody]
  let hbfHeader := (p.drop i).take HBF.Header.size
  let s₁ : Builder := { s with fFirst := i + HBF.Header.size, fInputPayloads := [p] }
  obtain ⟨s', hrun, hmax', hcount', hfirst', hqueue', houtput'⟩ :=
    @countHBF_spec word1 s₁ (payloads ++ [hbfHeader]) hcounter (by
      show s.fMaxHBF ≠ 0
      rw [h.max]
      omega)
  refine ⟨s', ?_, ?_⟩
  · rw [closeFrame, hworking]
    show (if s.fInputPayloads ++ [p] = [] then _ else _) = _
    rw [if_neg (by simp), if_neg htotal, hcopy, ← hrun]
    show countHBF word1 (if i + HBF.Header.size ≥ p.length then _ else _) _ = _
    rw [if_neg (Nat.not_le.mpr hbehind)]
  · have hbody : payloads.flatten = (s.fWorkingPayloads.getD []).flatten ++ msgBody :=
      flatten_unless_nil _ _
    have hsplit : p.take (i + HBF.Header.size) = p.take i ++ hbfHeader := List.take_add
    have hdrop : (ps.flatten ++ p).drop (ps.flatten.length + (i + HBF.Header.size)) =
        p.drop (i + HBF.Header.size) := List.drop_length_add_append _
    exact
      { max := hmax'.trans h.max
        count := by
          rw [hcount', headerCount_concat, hheaders]
          show s.fHBFCounter + 1 = _
          rw [h.count]
          rfl
        output := by
          calc appended s'
              = (s.fOutputPayloads.flatMap SubTimeFrame.payloads).flatten ++
                  (payloads.flatten ++ hbfHeader) := by
                rw [houtput', List.flatten_append, flatten_concat]
            _ = appended s ++ (msgBody ++ hbfHeader) := by
                rw [hbody, appended, List.flatten_append]
                simp only [List.append_assoc]
            _ = closed ps ++ (ps.flatten.drop (streamEnd ps) ++ (p.take i ++ hbfHeader)) := by
                rw [h.output, List.append_assoc]
            _ = ps.flatten ++ p.take (i + HBF.Header.size) := by
                rw [closed, ← List.append_assoc, List.take_append_drop, hsplit]
            _ = closed (ps ++ [p]) := by
                rw [closed, hend, flatten_concat, List.take_length_add_append]
        first := by
          rw [hfirst', hqueue']
          exact hsum
        waiting := by
          rw [hfirst', hqueue', hend, flatten_concat, hdrop]
          show [p].flatten.drop (i + HBF.Header.size) = _
          rw [List.flatten_singleton]
        streamEnd_le := by
          rw [hend, flatten_concat, List.length_append]
          omega }

theorem Invariant.buildFrame (h : Invariant fMaxHBF ps s) (word1 : BitVec 64)
    (hp : Harmless fMaxHBF ps p) :
    ∃ s', buildFrame s (word1, p) = .ok s' ∧ Invariant fMaxHBF (ps ++ [p]) s' := by
  obtain ⟨hlong, hsmall, hcase⟩ := hp
  rw [SubTimeFrameBuilder.buildFrame, if_neg (Nat.not_lt.mpr hlong)]
  dsimp only
  cases hcase with
  | inl hnone =>
      rw [search_eq_headers word1 hlong hsmall (by rw [hnone]; exact List.forall_mem_nil _), hnone]
      exact ⟨_, rfl, h.wait hnone⟩
  | inr hone =>
      obtain ⟨i, hheaders, hi⟩ := hone
      obtain ⟨s', hclose, hinv⟩ := h.close word1 hheaders hi
      refine ⟨s', ?_, hinv⟩
      rw [search_eq_headers word1 hlong hsmall, hheaders, List.foldlM_cons, hclose]
      · rfl
      · rw [hheaders, List.forall_mem_singleton]
        exact ⟨hi.behind, hi.index⟩

end Steps

theorem run_concat (s : Builder) (inputs : List (BitVec 64 × Bytes)) (input : BitVec 64 × Bytes) :
    run s (inputs ++ [input]) = run s inputs >>= fun s' => buildFrame s' input := by
  simp [run]

/-- A run over harmless payloads, at each of its payloads. -/
theorem run_invariant {fMaxHBF : Int} (inputs : List (BitVec 64 × Bytes))
    (hharmless : ∀ before p after, inputs.map Prod.snd = before ++ p :: after →
      Harmless fMaxHBF before p) :
    ∃ s, run { fMaxHBF } inputs = .ok s ∧ Invariant fMaxHBF (inputs.map Prod.snd) s := by
  induction inputs using List.reverseRecOn with
  | nil => exact ⟨_, rfl, invariant_start fMaxHBF⟩
  | append_singleton inputs input ih =>
      obtain ⟨s, hrun, hinv⟩ := ih fun before p after heq =>
        hharmless before p (after ++ [input.2]) (by simp [heq])
      obtain ⟨s', hbuild, hinv'⟩ := hinv.buildFrame input.1
        (hharmless (inputs.map Prod.snd) input.2 [] (by simp))
      refine ⟨s', ?_, ?_⟩
      · rw [run_concat, hrun]
        exact hbuild
      · rw [List.map_append, List.map_singleton]
        exact hinv'

/-- What the builder is to do with a sequence of payloads: after each of them it has
appended the stream up to the last header. -/
def Conserves (fMaxHBF : Int) (inputs : List (BitVec 64 × Bytes)) : Prop :=
  ∀ seen, seen <+: inputs →
    ∃ s, run { fMaxHBF } seen = .ok s ∧ appended s = closed (seen.map Prod.snd)

/-- With one header to a payload at most, and bytes behind it, nothing is lost and nothing
is repeated. -/
theorem conserves_of_harmless {fMaxHBF : Int} {inputs : List (BitVec 64 × Bytes)}
    (hharmless : ∀ before p after, inputs.map Prod.snd = before ++ p :: after →
      Harmless fMaxHBF before p) :
    Conserves fMaxHBF inputs := by
  rintro seen ⟨rest, rfl⟩
  obtain ⟨s, hrun, hinv⟩ := run_invariant seen fun before p after heq =>
    hharmless before p (after ++ rest.map Prod.snd) (by simp [heq])
  exact ⟨s, hrun, hinv.output⟩

/-- A payload that is a heartbeat header and nothing else: the search does not look at it. -/
def headerOnly : Bytes := put 8 HBF.Magic ++ List.replicate 16 0

/-- A payload with a header behind its first byte and one byte behind the header. -/
def oneHeader : Bytes := 7 :: headerOnly ++ [9]

theorem harmless_oneHeader {before : List Bytes}
    (hsize : (before.flatten.length - streamEnd before + 1) % 2 ^ 32 < 2 ^ 31)
    (hcount : headerCount before + 1 < 2 ^ 31) : Harmless 1 before oneHeader :=
  ⟨by decide, by decide, .inr ⟨1, by decide, by decide, by decide, hsize, hcount, by decide⟩⟩

theorem conserves_of_harmless_oneHeader : Conserves 1 [(0, oneHeader), (0, oneHeader)] := by
  apply conserves_of_harmless
  intro before p after heq
  match before, heq with
  | [], heq =>
      obtain ⟨rfl, -⟩ := List.cons.inj heq
      exact harmless_oneHeader (by decide) (by decide)
  | [_], heq =>
      obtain ⟨hbefore, htail⟩ := List.cons.inj heq
      obtain ⟨rfl, -⟩ := List.cons.inj htail
      rw [← hbefore]
      exact harmless_oneHeader (by decide) (by decide)
  | _ :: _ :: before, heq =>
      have hlength := congrArg List.length heq
      simp at hlength

theorem not_conserves :
    ¬∀ (fMaxHBF : Int) (inputs : List (BitVec 64 × Bytes)), 1 ≤ fMaxHBF → fMaxHBF < 2 ^ 30 →
      (∀ p ∈ inputs.map Prod.snd, HBF.Header.size ≤ p.length) →
      NoStraddle (inputs.map Prod.snd) → Conserves fMaxHBF inputs := by
  intro h
  have hwhole : NoStraddle [headerOnly] := by
    intro before p after heq
    match before, heq with
    | [], heq =>
        obtain ⟨rfl, rfl⟩ := List.cons.inj heq
        decide
    | _ :: before, heq =>
        have hlength := congrArg List.length heq
        simp at hlength
  obtain ⟨s, hrun, houtput⟩ := h 1 [(0, headerOnly)] (by decide) (by decide) (by decide) hwhole _
    List.prefix_rfl
  have hnothing : run { fMaxHBF := 1 } [(0, headerOnly)] =
      .ok { fMaxHBF := 1, fInputPayloads := [headerOnly] } := rfl
  rw [hnothing] at hrun
  cases hrun
  exact absurd houtput (by decide)

end SubTimeFrameBuilder
end Userworks
