import Userworks.Exam6.FltTrig
import Userworks.Exam6.TimeFrameBuilding
import Mathlib.Algebra.Order.BigOperators.Group.List

/-!
The headers of a suppressed time frame, on the messages with their keep flags.

The index that runs over the headers is moved on from inside the loop, past
messages that are no headers, so every header is brought up to date from the kept
messages behind it. What it announces is compared with what is finally sent.
-/
namespace Userworks
namespace Exam6
namespace FltTrig

open TimeFrameBuilder (totalLength)

def keptMessages (parts : List (Bytes × Bool)) : List Bytes :=
  (parts.filter fun part => part.2).map Prod.fst

/-- The kept messages before the next header. -/
def contents (parts : List (Bytes × Bool)) : List Bytes :=
  keptMessages (parts.takeWhile fun part => !isStf part.1)

@[simp] theorem totalLength_nil : totalLength [] = 0 := rfl

@[simp] theorem totalLength_cons (msg : Bytes) (messages : List Bytes) :
    totalLength (msg :: messages) = msg.length + totalLength messages :=
  rfl

@[simp] theorem totalLength_append (as bs : List Bytes) :
    totalLength (as ++ bs) = totalLength as + totalLength bs := by
  rw [totalLength, List.map_append, List.sum_append]
  rfl

@[simp] theorem keptMessages_cons (msg : Bytes) (keep : Bool) (parts : List (Bytes × Bool)) :
    keptMessages ((msg, keep) :: parts) = (if keep then [msg] else []) ++ keptMessages parts := by
  cases keep <;> rfl

theorem contents_message {msg : Bytes} (h : isStf msg = false) (keep : Bool)
    (parts : List (Bytes × Bool)) :
    contents ((msg, keep) :: parts) = (if keep then [msg] else []) ++ contents parts := by
  rw [contents, List.takeWhile_cons_of_pos (by simp [h]), keptMessages_cons, ← contents]

theorem contents_header {msg : Bytes} (h : isStf msg = true) (keep : Bool)
    (parts : List (Bytes × Bool)) : contents ((msg, keep) :: parts) = [] := by
  rw [contents, List.takeWhile_cons_of_neg (by simp [h])]
  rfl

/-- The inner loop adds up the contents, and passes the messages before the next
header if there is one. -/
theorem stfContents_eq (len_stf nmsg_stf : BitVec 32) (passed : Nat)
    (parts : List (Bytes × Bool)) :
    stfContents len_stf nmsg_stf passed parts =
      (len_stf + BitVec.ofNat 32 (totalLength (contents parts)),
        nmsg_stf + BitVec.ofNat 32 (contents parts).length,
        if parts.any fun part => isStf part.1 then
          passed + (parts.takeWhile fun part => !isStf part.1).length
        else 0) := by
  induction parts generalizing len_stf nmsg_stf passed with
  | nil => simp [stfContents, contents, keptMessages, totalLength]
  | cons part parts ih =>
      obtain ⟨msg, keep⟩ := part
      cases hstf : isStf msg with
      | true =>
          rw [contents_header hstf]
          simp [stfContents, hstf, totalLength]
      | false =>
          have hany : (((msg, keep) :: parts).any fun part => isStf part.1) =
              parts.any fun part => isStf part.1 := by
            rw [List.any_cons, hstf, Bool.false_or]
          have hnext : (((msg, keep) :: parts).takeWhile fun part => !isStf part.1).length =
              (parts.takeWhile fun part => !isStf part.1).length + 1 := by
            rw [List.takeWhile_cons_of_pos (by simp [hstf]), List.length_cons]
          rw [contents_message hstf, hany, hnext]
          cases keep with
          | true =>
              simp only [stfContents, hstf, ih]
              simp [BitVec.ofNat_add, BitVec.add_assoc, Nat.add_assoc, Nat.add_comm]
          | false =>
              simp only [stfContents, hstf, ih]
              simp [Nat.add_assoc, Nat.add_comm]

/-- Jumping over messages that are no headers changes nothing. -/
theorem rewriteStfs_jump (skip : Nat) (parts : List (Bytes × Bool))
    (h : ∀ part ∈ parts.take skip, isStf part.1 = false) :
    rewriteStfs skip parts = rewriteStfs 0 parts := by
  induction skip generalizing parts with
  | zero => rfl
  | succ skip ih =>
      cases parts with
      | nil => rfl
      | cons part parts =>
          rw [List.take_succ_cons] at h
          rw [rewriteStfs, ih parts fun p hp => h p (List.mem_cons_of_mem part hp), rewriteStfs,
            h part List.mem_cons_self]
          rfl

theorem rewriteStfs_message {msg : Bytes} (h : isStf msg = false) (keep : Bool)
    (parts : List (Bytes × Bool)) :
    rewriteStfs 0 ((msg, keep) :: parts) = (msg, keep) :: rewriteStfs 0 parts := by
  rw [rewriteStfs, h]
  rfl

/-- A header is brought up to date from its contents. -/
theorem rewriteStfs_header {msg : Bytes} (h : isStf msg = true) (keep : Bool)
    (parts : List (Bytes × Bool)) :
    rewriteStfs 0 ((msg, keep) :: parts) =
      rewriteStf msg keep (BitVec.ofNat 32 (totalLength (contents parts)))
        (BitVec.ofNat 32 (contents parts).length) :: rewriteStfs 0 parts := by
  rw [rewriteStfs, h, if_pos rfl, stfContents_eq]
  simp only [BitVec.ofNat_eq_ofNat, BitVec.zero_add, Nat.zero_add]
  rw [rewriteStfs_jump]
  intro part hpart
  split at hpart
  · rw [← List.prefix_iff_eq_take.mp (List.takeWhile_prefix _)] at hpart
    simpa using List.all_eq_true.mp List.all_takeWhile part hpart
  · cases hpart

/-- The messages of the sub time frames that are sent. -/
def sentMessages (parts : List (Bytes × Bool)) : List Bytes := keptMessages (rewriteStfs 0 parts)

/-- The header that is sent before the messages `own`. -/
def announce (msg : Bytes) (own : List Bytes) : Bytes :=
  { SubTimeFrame.Header.decode msg with
    length := BitVec.ofNat 32 (totalLength own) + BitVec.ofNat 32 SubTimeFrame.Header.size
    numMessages := BitVec.ofNat 32 own.length }.encode ++ msg.drop SubTimeFrame.Header.size

theorem decode_announce (msg : Bytes) (own : List Bytes) :
    SubTimeFrame.Header.decode (announce msg own) =
      { SubTimeFrame.Header.decode msg with
        length := BitVec.ofNat 32 (totalLength own) + BitVec.ofNat 32 SubTimeFrame.Header.size
        numMessages := BitVec.ofNat 32 own.length } :=
  SubTimeFrame.Header.decode_encode _ _

@[simp] theorem isStf_announce (msg : Bytes) (own : List Bytes) :
    isStf (announce msg own) = isStf msg := by
  have hmagic : ∀ bs, isStf bs = decide ((SubTimeFrame.Header.decode bs).magic =
      SubTimeFrame.MAGIC) := fun _ => rfl
  rw [hmagic, decode_announce, hmagic]

theorem sentMessages_message {msg : Bytes} (h : isStf msg = false) (keep : Bool)
    (parts : List (Bytes × Bool)) :
    sentMessages ((msg, keep) :: parts) = (if keep then [msg] else []) ++ sentMessages parts := by
  rw [sentMessages, rewriteStfs_message h, keptMessages_cons, ← sentMessages]

theorem sentMessages_header {msg : Bytes} (h : isStf msg = true) (parts : List (Bytes × Bool)) :
    sentMessages ((msg, true) :: parts) =
      (if BitVec.ofNat 32 (totalLength (contents parts)) = 0 then []
        else [announce msg (contents parts)]) ++ sentMessages parts := by
  rw [sentMessages, rewriteStfs_header h, rewriteStf]
  split <;> rfl

theorem keptLength_eq (parts : List (Bytes × Bool)) :
    keptLength parts = BitVec.ofNat 32 (totalLength (keptMessages parts)) := by
  have hfold : ∀ (parts : List (Bytes × Bool)) (tf_len : BitVec 32),
      parts.foldl (fun tf_len part =>
        if part.2 then tf_len + BitVec.ofNat 32 part.1.length else tf_len) tf_len =
      tf_len + BitVec.ofNat 32 (totalLength (keptMessages parts)) := by
    intro parts
    induction parts with
    | nil => simp [keptMessages]
    | cons part parts ih =>
        intro tf_len
        obtain ⟨msg, keep⟩ := part
        rw [List.foldl_cons, ih]
        cases keep with
        | true => simp [BitVec.ofNat_add, BitVec.add_assoc]
        | false => simp
  rw [keptLength, hfold, BitVec.ofNat_eq_ofNat, BitVec.zero_add]

theorem rewriteTf_encode (tf : TimeFrame.Header) (tf_len : BitVec 32) :
    rewriteTf tf_len tf.encode = { tf with length := tf_len }.encode := by
  rw [rewriteTf, tf.decode_encode_self, List.drop_of_length_le (Nat.le_of_eq tf.length_encode),
    List.append_nil]

/-- The messages behind a header up to the next one. -/
def ownMessages (rest : List Bytes) : List Bytes := rest.takeWhile fun msg => !isStf msg

/-- Every sub time frame header counts itself and the messages behind it. -/
def CountsHeaders (sent : List Bytes) : Prop :=
  ∀ before msg rest, sent = before ++ msg :: rest → isStf msg = true →
    (SubTimeFrame.Header.decode msg).numMessages.toNat = 1 + (ownMessages rest).length

/-- The headers in a list of messages describe what is there: the length of a sub
time frame is that of its header and its messages, and its count of messages is
that of the samplers and builders, which include the header; the time frame has
the length of all messages and counts the headers of the sub time frames. -/
structure SelfDescribing (sent : List Bytes) : Prop where
  stfLength : ∀ before msg rest, sent = before ++ msg :: rest → isStf msg = true →
    (SubTimeFrame.Header.decode msg).length.toNat =
      SubTimeFrame.Header.size + totalLength (ownMessages rest)
  numMessages : CountsHeaders sent
  tfLength : ∀ msg ∈ sent, isTf msg = true →
    (TimeFrame.Header.decode msg).length.toNat = totalLength sent
  numSource : ∀ msg ∈ sent, isTf msg = true →
    (TimeFrame.Header.decode msg).numSource.toNat = sent.countP isStf

/-- The messages before the headers are rewritten: no message is empty, and a sub time
frame header is complete and still has its flag. -/
inductive Flagged : List (Bytes × Bool) → Prop where
  | nil : Flagged []
  | message {msg : Bytes} (keep : Bool) {parts : List (Bytes × Bool)} :
      isStf msg = false → 0 < msg.length → Flagged parts → Flagged ((msg, keep) :: parts)
  | header {msg : Bytes} {parts : List (Bytes × Bool)} :
      isStf msg = true → SubTimeFrame.Header.size ≤ msg.length → Flagged parts →
      Flagged ((msg, true) :: parts)

theorem flagged_of_forall {parts : List (Bytes × Bool)}
    (hsize : ∀ part ∈ parts, 0 < part.1.length)
    (hheader : ∀ part ∈ parts, isStf part.1 = true →
      part.2 = true ∧ SubTimeFrame.Header.size ≤ part.1.length) : Flagged parts := by
  induction parts with
  | nil => exact .nil
  | cons part parts ih =>
      obtain ⟨msg, keep⟩ := part
      have hparts := ih (fun p hp => hsize p (List.mem_cons_of_mem _ hp))
        (fun p hp => hheader p (List.mem_cons_of_mem _ hp))
      cases hstf : isStf msg with
      | true =>
          obtain ⟨hkeep, hlength⟩ := hheader _ List.mem_cons_self hstf
          have hkeep : keep = true := hkeep
          subst hkeep
          exact .header hstf hlength hparts
      | false => exact .message keep hstf (hsize _ List.mem_cons_self) hparts

/-- The kept messages of a sub time frame are among its own in what is sent. -/
theorem Flagged.length_contents_le {parts : List (Bytes × Bool)} (h : Flagged parts) :
    (contents parts).length ≤ (ownMessages (sentMessages parts)).length := by
  induction h with
  | nil => exact Nat.le_refl _
  | message keep hmsg _ _ ih =>
      rw [contents_message hmsg, sentMessages_message hmsg]
      cases keep with
      | true => simpa [ownMessages, hmsg] using ih
      | false => simpa using ih
  | header hmsg _ _ _ =>
      rw [contents_header hmsg]
      exact Nat.zero_le _

theorem CountsHeaders.of_append {as bs : List Bytes} (h : CountsHeaders (as ++ bs)) :
    CountsHeaders bs := by
  intro before msg rest heq hmsg
  exact h (as ++ before) msg rest (by rw [heq, List.append_assoc]) hmsg

/-- The code does not count the header, so it can only be right by sending none. -/
theorem Flagged.not_countsHeaders {msg : Bytes} {parts : List (Bytes × Bool)}
    (h : Flagged parts) (hmsg : isStf msg = true) :
    ¬ CountsHeaders (announce msg (contents parts) :: sentMessages parts) := by
  intro hcount
  have hnum := hcount [] _ _ rfl (by rw [isStf_announce, hmsg])
  have hle := h.length_contents_le
  have hmod := Nat.mod_le (contents parts).length (2 ^ 32)
  rw [decode_announce, BitVec.toNat_ofNat] at hnum
  omega

theorem Flagged.contents_eq_nil_of_length {parts : List (Bytes × Bool)} (h : Flagged parts)
    (hzero : totalLength (contents parts) = 0) : contents parts = [] := by
  induction h with
  | nil => rfl
  | message keep hmsg hsize _ ih =>
      rw [contents_message hmsg] at hzero ⊢
      cases keep with
      | true =>
          rw [if_pos rfl, List.singleton_append, totalLength_cons] at hzero
          omega
      | false => exact ih hzero
  | header hmsg _ _ _ => exact contents_header hmsg _ _

/-- Behind a header that is left out nothing is sent. -/
theorem Flagged.contents_eq_nil_of_small {parts : List (Bytes × Bool)} (h : Flagged parts)
    (hsmall : totalLength (contents parts) < 2 ^ 32)
    (hzero : BitVec.ofNat 32 (totalLength (contents parts)) = 0) : contents parts = [] := by
  apply h.contents_eq_nil_of_length
  have hmod := congrArg BitVec.toNat hzero
  rwa [BitVec.toNat_ofNat, Nat.mod_eq_of_lt hsmall] at hmod

/-- If the counts are right, no header and so no message behind one is sent. -/
theorem Flagged.sentMessages_eq_contents {parts : List (Bytes × Bool)} (h : Flagged parts)
    (hcount : CountsHeaders (sentMessages parts))
    (hsmall : totalLength (sentMessages parts) < 2 ^ 32) :
    sentMessages parts = contents parts := by
  induction h with
  | nil => rfl
  | message keep hmsg _ _ ih =>
      rw [sentMessages_message hmsg] at hcount hsmall ⊢
      rw [totalLength_append] at hsmall
      rw [contents_message hmsg, ih hcount.of_append (by omega)]
  | @header msg parts hmsg _ hparts ih =>
      rw [sentMessages_header hmsg] at hcount hsmall ⊢
      rw [contents_header hmsg]
      by_cases hzero : BitVec.ofNat 32 (totalLength (contents parts)) = 0
      · rw [if_pos hzero, List.nil_append] at hcount hsmall ⊢
        have hsent := ih hcount hsmall
        rw [hsent] at hsmall ⊢
        exact hparts.contents_eq_nil_of_small hsmall hzero
      · rw [if_neg hzero] at hcount
        exact absurd hcount (hparts.not_countsHeaders hmsg)

theorem contents_eq_nil {parts : List (Bytes × Bool)}
    (h : ∀ part ∈ parts, isStf part.1 = false → part.2 = false) : contents parts = [] := by
  rw [contents, keptMessages, List.map_eq_nil_iff, List.filter_eq_nil_iff]
  intro part hpart
  have hmsg := List.all_eq_true.mp List.all_takeWhile part hpart
  simp [h part ((List.takeWhile_sublist _).subset hpart) (by simpa using hmsg)]

/-- Nothing is sent exactly when no message has its flag. -/
theorem Flagged.sentMessages_eq_nil_iff {parts : List (Bytes × Bool)} (h : Flagged parts) :
    sentMessages parts = [] ↔ ∀ part ∈ parts, isStf part.1 = false → part.2 = false := by
  induction h with
  | nil => exact iff_of_true rfl (by simp)
  | message keep hmsg _ _ ih =>
      rw [sentMessages_message hmsg, List.append_eq_nil_iff, ih, List.forall_mem_cons]
      cases keep <;> simp [hmsg]
  | @header msg parts hmsg _ _ ih =>
      rw [sentMessages_header hmsg, List.append_eq_nil_iff, ih, List.forall_mem_cons]
      constructor
      · intro hnone
        exact ⟨fun hfalse => absurd hmsg (by simp [hfalse]), hnone.2⟩
      · intro hnone
        rw [contents_eq_nil hnone.2]
        exact ⟨rfl, hnone.2⟩

theorem isStf_encode_tf {tf : TimeFrame.Header} (hmagic : tf.magic = TimeFrame.MAGIC) :
    isStf tf.encode = false := by
  rw [isStf, tf.field_encode, hmagic]
  decide

theorem isTf_encode_tf {tf : TimeFrame.Header} (hmagic : tf.magic = TimeFrame.MAGIC) :
    isTf tf.encode = true := by
  rw [isTf, tf.field_encode, hmagic]
  decide

/-- A time frame header alone describes itself if it announces nothing else. -/
theorem selfDescribing_singleton {head : TimeFrame.Header} (hmagic : head.magic = TimeFrame.MAGIC)
    (hlength : head.length.toNat = TimeFrame.Header.size) (hsource : head.numSource = 0) :
    SelfDescribing [head.encode] := by
  have honly : ∀ before msg rest, [head.encode] = before ++ msg :: rest → isStf msg = false := by
    intro before msg rest heq
    have hmem : msg ∈ [head.encode] := by rw [heq]; simp
    rw [List.mem_singleton.mp hmem, isStf_encode_tf hmagic]
  constructor
  · intro before msg rest heq hmsg
    rw [honly before msg rest heq] at hmsg
    cases hmsg
  · intro before msg rest heq hmsg
    rw [honly before msg rest heq] at hmsg
    cases hmsg
  · intro msg hmsg _
    rw [List.mem_singleton.mp hmsg, TimeFrame.Header.decode_encode_self, hlength, totalLength_cons,
      TimeFrame.Header.length_encode]
    rfl
  · intro msg hmsg _
    rw [List.mem_singleton.mp hmsg, TimeFrame.Header.decode_encode_self, hsource,
      List.countP_cons_of_neg (by simp [isStf_encode_tf hmagic])]
    rfl

/-- What is sent describes itself exactly when it is the time frame header alone and
that header announces no sub time frame. -/
theorem Flagged.selfDescribing_iff {parts : List (Bytes × Bool)} (h : Flagged parts)
    (hstart : contents parts = []) {head : TimeFrame.Header}
    (hmagic : head.magic = TimeFrame.MAGIC)
    (hlength : head.length =
      BitVec.ofNat 32 (TimeFrame.Header.size + totalLength (sentMessages parts))) :
    SelfDescribing (head.encode :: sentMessages parts) ↔
      head.numSource = 0 ∧ ∀ part ∈ parts, isStf part.1 = false → part.2 = false := by
  constructor
  · intro hself
    have htotal := hself.tfLength _ List.mem_cons_self (isTf_encode_tf hmagic)
    have hsource := hself.numSource _ List.mem_cons_self (isTf_encode_tf hmagic)
    rw [TimeFrame.Header.decode_encode_self, hlength, BitVec.toNat_ofNat, totalLength_cons,
      TimeFrame.Header.length_encode] at htotal
    have hcount : CountsHeaders (sentMessages parts) :=
      @CountsHeaders.of_append [head.encode] _ hself.numMessages
    have hmod := Nat.mod_lt (TimeFrame.Header.size + totalLength (sentMessages parts))
      (show 0 < 2 ^ 32 by decide)
    have hnil : sentMessages parts = [] := by
      rw [h.sentMessages_eq_contents hcount (by omega), hstart]
    rw [TimeFrame.Header.decode_encode_self, hnil,
      List.countP_cons_of_neg (by simp [isStf_encode_tf hmagic]), List.countP_nil] at hsource
    exact ⟨BitVec.eq_of_toNat_eq hsource, h.sentMessages_eq_nil_iff.mp hnil⟩
  · intro hnone
    rw [h.sentMessages_eq_nil_iff.mpr hnone.2] at hlength ⊢
    exact selfDescribing_singleton hmagic (by rw [hlength]; rfl) hnone.1

theorem totalLength_contents_le (parts : List (Bytes × Bool)) :
    totalLength (contents parts) ≤ totalLength (parts.map Prod.fst) := by
  have hsublist : (contents parts).Sublist (parts.map Prod.fst) :=
    (List.filter_sublist.trans (List.takeWhile_sublist _)).map Prod.fst
  exact (hsublist.map List.length).sum_le_sum fun _ _ => Nat.zero_le _

/-- In a frame of less than 4 GiB the messages between two headers that are sent are
the kept messages of one sub time frame. -/
theorem Flagged.ownMessages_sentMessages {parts : List (Bytes × Bool)} (h : Flagged parts)
    (hsmall : totalLength (parts.map Prod.fst) < 2 ^ 32) :
    ownMessages (sentMessages parts) = contents parts := by
  induction h with
  | nil => rfl
  | message keep hmsg _ _ ih =>
      rw [List.map_cons, totalLength_cons] at hsmall
      have hrest := ih (by omega)
      rw [contents_message hmsg, sentMessages_message hmsg]
      cases keep with
      | true => simpa [ownMessages, hmsg] using hrest
      | false => simpa using hrest
  | @header msg parts hmsg _ hparts ih =>
      rw [List.map_cons, totalLength_cons] at hsmall
      have hcontents := totalLength_contents_le parts
      rw [contents_header hmsg, sentMessages_header hmsg]
      by_cases hzero : BitVec.ofNat 32 (totalLength (contents parts)) = 0
      · rw [if_pos hzero, List.nil_append, ih (by omega)]
        exact hparts.contents_eq_nil_of_small (by omega) hzero
      · rw [if_neg hzero]
        simp [ownMessages, hmsg]

theorem length_announce {msg : Bytes} (h : SubTimeFrame.Header.size ≤ msg.length)
    (own : List Bytes) : (announce msg own).length = msg.length := by
  rw [announce, List.length_append, SubTimeFrame.Header.length_encode, List.length_drop]
  omega

/-- No message grows. -/
theorem Flagged.totalLength_sentMessages_le {parts : List (Bytes × Bool)} (h : Flagged parts) :
    totalLength (sentMessages parts) ≤ totalLength (parts.map Prod.fst) := by
  induction h with
  | nil => exact Nat.le_refl _
  | message keep hmsg _ _ ih =>
      rw [sentMessages_message hmsg, List.map_cons, totalLength_append, totalLength_cons]
      refine Nat.add_le_add ?_ ih
      cases keep <;> simp
  | header hmsg hlength _ ih =>
      rw [sentMessages_header hmsg, List.map_cons, totalLength_append, totalLength_cons]
      refine Nat.add_le_add ?_ ih
      split
      · exact Nat.zero_le _
      · rw [totalLength_cons, length_announce hlength]
        exact Nat.le_refl _

/-- In such a frame a header that is sent announces the right length, and it counts
the messages behind it. -/
theorem Flagged.sent_header {parts : List (Bytes × Bool)} (h : Flagged parts)
    (hsmall : totalLength (parts.map Prod.fst) < 2 ^ 32)
    {before rest : List Bytes} {msg : Bytes}
    (hsent : sentMessages parts = before ++ msg :: rest) (hmsg : isStf msg = true) :
    (SubTimeFrame.Header.decode msg).length.toNat =
        SubTimeFrame.Header.size + totalLength (ownMessages rest) ∧
      (SubTimeFrame.Header.decode msg).numMessages =
        BitVec.ofNat 32 (ownMessages rest).length := by
  induction h generalizing before with
  | nil => simp [sentMessages, rewriteStfs, keptMessages] at hsent
  | @message first keep parts hfirst _ _ ih =>
      rw [List.map_cons, totalLength_cons] at hsmall
      rw [sentMessages_message hfirst] at hsent
      cases keep with
      | true =>
          cases before with
          | nil =>
              rw [(List.cons.inj hsent).1, hmsg] at hfirst
              cases hfirst
          | cons _ before => exact ih (by omega) (List.cons.inj hsent).2
      | false => exact ih (by omega) hsent
  | @header first parts hfirst hlength hparts ih =>
      rw [List.map_cons, totalLength_cons] at hsmall
      have hcontents := totalLength_contents_le parts
      rw [sentMessages_header hfirst] at hsent
      split at hsent
      · exact ih (by omega) hsent
      · cases before with
        | nil =>
            have hfits : SubTimeFrame.Header.size + totalLength (contents parts) < 2 ^ 32 := by
              simp only at hsmall hlength
              omega
            have hrest : sentMessages parts = rest := (List.cons.inj hsent).2
            rw [← (List.cons.inj hsent).1, ← hrest, decode_announce,
              hparts.ownMessages_sentMessages (by omega)]
            refine ⟨?_, rfl⟩
            show (BitVec.ofNat 32 (totalLength (contents parts)) +
              BitVec.ofNat 32 SubTimeFrame.Header.size).toNat = _
            rw [← BitVec.ofNat_add, BitVec.toNat_ofNat, Nat.add_comm, Nat.mod_eq_of_lt hfits]
        | cons _ before => exact ih (by omega) (List.cons.inj hsent).2

end FltTrig
end Exam6
end Userworks
