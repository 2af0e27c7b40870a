import Userworks.Recbe.RecbeSampler

/-!
The events that a sampler publishes from a stream of events.

A read that meets at most one timeout gives the next bytes of the stream, so a call whose
header and body are read like this takes exactly one event. As long as every call finds
the connection in such a state, what is published are the events of the stream in turn.
-/
namespace Userworks

namespace CliSock

open Arrival

@[simp] theorem receive_zero (sock : CliSock) : receive 0 sock = some ([], 0, sock) := by
  rw [receive, dif_neg (Nat.lt_irrefl 0)]

theorem receive_of_recv {length : Nat} {sock : CliSock} (hpos : 0 < length) :
    receive length sock = match recv length sock with
      | none => none
      | some (.error errno, sock') => some ([], errno, sock')
      | some (.ok bytes, sock') =>
          (receive (length - bytes.length) sock').map
            fun (later, flag, sock'') => (bytes ++ later, flag, sock'') := by
  rw [receive, dif_pos hpos]
  split <;> rename_i hrecv <;> rw [hrecv]

/-- What `Receive` makes of a reading of the arrivals. -/
def received (closed : List Int) (reading : Reading UInt8) : Option (Bytes × Int × CliSock) :=
  match reading.ending, closed with
  | .full, closed => some (reading.data, 0, { arrivals := reading.rest, closed })
  | .timeout, closed => some (reading.data, EAGAIN, { arrivals := reading.rest, closed })
  | .exhausted, errno :: closed => some (reading.data, errno, { arrivals := [], closed })
  | .exhausted, [] => none

theorem received_append (closed : List Int) (reading : Reading UInt8) (bytes : Bytes) :
    (received closed reading).map (fun (later, flag, sock) => (bytes ++ later, flag, sock)) =
      received closed { reading with data := bytes ++ reading.data } := by
  obtain ⟨data, ending, rest⟩ := reading
  cases ending with
  | full => rfl
  | timeout => rfl
  | exhausted => cases closed <;> rfl

theorem receive_eq (length : Nat) (arrivals : List (Arrival UInt8)) (closed : List Int) :
    receive length { arrivals, closed } = received closed (read length arrivals) := by
  fun_induction read length arrivals with
  | case1 arrivals => exact receive_zero _
  | case2 n =>
      rw [receive_of_recv n.succ_pos]
      cases closed <;> rfl
  | case3 n rest =>
      rw [receive_of_recv n.succ_pos]
      rfl
  | case4 n first more rest hlt =>
      have hleft : n + 1 - ((first :: more).take (n + 1)).length = 0 := by
        rw [List.length_take, List.length_cons]
        omega
      rw [receive_of_recv n.succ_pos]
      simp only [recv, hleft, receive_zero]
      rw [List.take_succ_cons]
      simp [received]
  | case5 n first more rest hlt later ih =>
      have hall : (first :: more).take (n + 1) = first :: more :=
        List.take_of_length_le (by rw [List.length_cons]; omega)
      have hnone : (first :: more).drop (n + 1) = [] :=
        List.drop_of_length_le (by rw [List.length_cons]; omega)
      have hleft : n + 1 - (first :: more).length = n - more.length := by
        rw [List.length_cons]
        omega
      rw [receive_of_recv n.succ_pos]
      simp only [recv, hall, hnone, hleft, putBack, ih]
      exact received_append closed later (first :: more)

/-- What a call of `Receive` that returns has done. -/
structure Received (length : Nat) (sock : CliSock) (bytes : Bytes) (flag : Int)
    (sock' : CliSock) : Prop where
  bytes_eq : bytes = (read length sock.arrivals).data
  arrivals_eq : sock'.arrivals = (read length sock.arrivals).rest
  closed_eq : (read length sock.arrivals).ending ≠ .exhausted → sock'.closed = sock.closed
  flag_timeout : (read length sock.arrivals).ending = .timeout → flag = EAGAIN
  flag_exhausted : (read length sock.arrivals).ending = .exhausted →
    sock.closed.head? = some flag

theorem receive_received {length : Nat} {sock sock' : CliSock} {bytes : Bytes} {flag : Int}
    (h : receive length sock = some (bytes, flag, sock')) :
    Received length sock bytes flag sock' := by
  obtain ⟨arrivals, closed⟩ := sock
  rw [receive_eq] at h
  cases hending : (read length arrivals).ending with
  | full =>
      simp only [received, hending] at h
      cases h
      exact ⟨rfl, rfl, fun _ => rfl, fun h => (by cases hending.symm.trans h),
        fun h => (by cases hending.symm.trans h)⟩
  | timeout =>
      simp only [received, hending] at h
      cases h
      exact ⟨rfl, rfl, fun _ => rfl, fun _ => rfl, fun h => (by cases hending.symm.trans h)⟩
  | exhausted =>
      cases closed with
      | nil => simp only [received, hending] at h; cases h
      | cons errno closed =>
          simp only [received, hending] at h
          cases h
          exact ⟨rfl, (read_exhausted hending).1.symm, fun h => absurd hending h,
            fun h => (by cases hending.symm.trans h), fun _ => rfl⟩

/-- The bytes that still arrive. -/
def stream (sock : CliSock) : Bytes := content sock.arrivals

namespace Received

variable {length : Nat} {sock sock' : CliSock} {bytes : Bytes} {flag : Int}

theorem append (h : Received length sock bytes flag sock') :
    bytes ++ sock'.stream = sock.stream := by
  rw [stream, h.bytes_eq, h.arrivals_eq]
  exact read_append length sock.arrivals

theorem length_le (h : Received length sock bytes flag sock') : bytes.length ≤ length := by
  rw [h.bytes_eq]
  exact length_read_le length sock.arrivals

theorem of_short (h : Received length sock bytes flag sock') (hshort : bytes.length < length)
    (hflag : flag ≠ EAGAIN) : timeout ∉ sock.arrivals ∧ sock.closed.head? = some flag := by
  cases hending : (read length sock.arrivals).ending with
  | full =>
      have hfull := (ending_full_iff length sock.arrivals).mp hending
      rw [← h.bytes_eq] at hfull
      exact absurd hfull (Nat.ne_of_lt hshort)
  | timeout => exact absurd (h.flag_timeout hending) hflag
  | exhausted => exact ⟨(read_exhausted hending).2, h.flag_exhausted hending⟩

theorem take (h : Received length sock bytes flag sock')
    (hcalm : timeouts length sock.arrivals = 0) : bytes = sock.stream.take length := by
  rw [h.bytes_eq]
  exact read_take hcalm

theorem skip (h : Received length sock bytes flag sock')
    (hcalm : timeouts length sock.arrivals = 0) (hfull : bytes.length = length) :
    sock' = { sock with arrivals := Arrival.skip length sock.arrivals } := by
  have hfits : length ≤ sock.stream.length := by
    rw [← h.append, List.length_append]
    omega
  have hending : (read length sock.arrivals).ending = .full := by
    rw [ending_full_iff, ← h.bytes_eq, hfull]
  have harrivals := h.arrivals_eq.trans (read_skip hcalm hfits)
  have hclosed := h.closed_eq fun hexhausted => by cases hending.symm.trans hexhausted
  obtain ⟨arrivals', closed'⟩ := sock'
  cases harrivals
  cases hclosed
  rfl

/-- The state behind the one timeout that interrupts a call. -/
theorem interrupted (h : Received length sock bytes flag sock')
    (hone : timeouts length sock.arrivals = 1) :
    flag = EAGAIN ∧ bytes.length ≠ length ∧
    timeouts (length - bytes.length) sock'.arrivals = 0 ∧
    Arrival.skip (length - bytes.length) sock'.arrivals = Arrival.skip length sock.arrivals ∧
    sock'.closed = sock.closed := by
  obtain ⟨hending, htimeouts, hskip⟩ := read_interrupted hone
  rw [h.arrivals_eq, h.bytes_eq]
  refine ⟨h.flag_timeout hending, ?_, htimeouts, hskip, ?_⟩
  · intro hfull
    rw [← ending_full_iff, hending] at hfull
    cases hfull
  · exact h.closed_eq fun hexhausted => by cases hending.symm.trans hexhausted

/-- A timeout before anything else. -/
theorem nothing {rest : List (Arrival UInt8)} {closed : List Int} (hpos : 0 < length)
    (h : Received length { arrivals := timeout :: rest, closed } bytes flag sock') :
    bytes = [] ∧ sock' = { arrivals := rest, closed } := by
  cases length with
  | zero => cases hpos
  | succ length =>
      have harrivals := h.arrivals_eq
      have hclosed := h.closed_eq nofun
      obtain ⟨arrivals', closed'⟩ := sock'
      cases harrivals
      cases hclosed
      exact ⟨h.bytes_eq, rfl⟩

/-- A call that is given less than it asks for and meets no timeout but at the end of the
stream has taken all of it. -/
theorem exhausts (h : Received length sock bytes flag sock')
    (hcalm : timeouts length sock.arrivals = 0) (hshort : bytes.length < length) :
    sock'.stream = [] := by
  have happend := h.append
  rw [h.take hcalm] at happend hshort
  rw [List.length_take] at hshort
  rw [List.take_of_length_le (by omega)] at happend
  exact List.append_right_eq_self.mp happend

end Received

end CliSock

namespace RecbeSampler

open CliSock Arrival

section Reads

variable {length : Nat} {sock sock' : CliSock} {bytes : Bytes} {outcome : Outcome}

/-- What a read that may be repeated has done. -/
inductive Retried (length : Nat) (sock : CliSock) : Bytes × Outcome × CliSock → Prop
  | once {bytes : Bytes} {flag : Int} {sock' : CliSock}
      (h : Received length sock bytes flag sock') (hfull : bytes.length = length) :
      Retried length sock (bytes, .complete, sock')
  | error {bytes : Bytes} {flag : Int} {sock' : CliSock}
      (h : Received length sock bytes flag sock') (hshort : bytes.length < length)
      (hflag : flag ≠ EAGAIN) : Retried length sock (bytes, .error, sock')
  | again {bytes more : Bytes} {flag : Int} {sock₁ sock' : CliSock}
      (h : Received length sock bytes EAGAIN sock₁) (hshort : bytes.length < length)
      (h' : Received (length - bytes.length) sock₁ more flag sock') :
      Retried length sock (bytes ++ more,
        if bytes.length + more.length < length then .incomplete else .complete, sock')

theorem receiveRetry_retried {result : Bytes × Outcome × CliSock}
    (h : receiveRetry length sock = some result) : Retried length sock result := by
  rw [receiveRetry] at h
  obtain ⟨⟨bytes, flag, sock₁⟩, hfirst, h⟩ := Option.bind_eq_some_iff.mp h
  have hreceived := receive_received hfirst
  dsimp only at h
  split at h
  · rename_i hshort
    split at h
    · rename_i hflag
      obtain ⟨⟨more, flag', sock'⟩, hsecond, h⟩ := Option.bind_eq_some_iff.mp h
      dsimp only at h
      rw [hflag] at hreceived
      have hagain := Retried.again hreceived hshort (receive_received hsecond)
      split at h <;> rename_i hmore <;> cases h
      · rwa [if_pos hmore] at hagain
      · rwa [if_neg hmore] at hagain
    · rename_i hflag
      cases h
      exact .error hreceived hshort hflag
  · rename_i hlong
    cases h
    exact .once hreceived (Nat.le_antisymm hreceived.length_le (Nat.le_of_not_lt hlong))

theorem Retried.append (h : Retried length sock (bytes, outcome, sock')) :
    bytes ++ sock'.stream = sock.stream := by
  cases h with
  | once h hfull => exact h.append
  | error h hshort hflag => exact h.append
  | again h hshort h' => rw [List.append_assoc, h'.append, h.append]

theorem Retried.length_le (h : Retried length sock (bytes, outcome, sock')) :
    bytes.length ≤ length := by
  cases h with
  | once h hfull => exact h.length_le
  | error h hshort hflag => exact h.length_le
  | again h hshort h' =>
      have hmore := h'.length_le
      rw [List.length_append]
      omega

theorem Retried.complete_iff (h : Retried length sock (bytes, outcome, sock')) :
    outcome = .complete ↔ bytes.length = length := by
  cases h with
  | once h hfull => simp [hfull]
  | error h hshort hflag => simp [Nat.ne_of_lt hshort]
  | again h hshort h' =>
      have hmore := h'.length_le
      rw [List.length_append]
      split
      · rename_i hless
        simp [Nat.ne_of_lt hless]
      · simp only [true_iff]
        omega

theorem Retried.of_error (h : Retried length sock (bytes, .error, sock')) :
    timeout ∉ sock.arrivals ∧ ∃ errno, sock.closed.head? = some errno ∧ errno ≠ EAGAIN := by
  generalize houtcome : Outcome.error = outcome at h
  cases h with
  | once h hfull => cases houtcome
  | error h hshort hflag =>
      have hclosed := h.of_short hshort hflag
      exact ⟨hclosed.1, _, hclosed.2, hflag⟩
  | again h hshort h' => split at houtcome <;> cases houtcome

/-- A disconnect that does not look like a timeout is not tried again. -/
theorem Retried.not_incomplete (h : Retried length sock (bytes, outcome, sock')) {errno : Int}
    (hno : timeout ∉ sock.arrivals) (hclosed : sock.closed.head? = some errno)
    (herrno : errno ≠ EAGAIN) : outcome ≠ .incomplete := by
  cases h with
  | once h hfull => nofun
  | error h hshort hflag => nofun
  | again h hshort h' =>
      cases hending : (read length sock.arrivals).ending with
      | full =>
          rw [ending_full_iff, ← h.bytes_eq] at hending
          exact absurd hending (Nat.ne_of_lt hshort)
      | timeout => exact absurd (mem_of_read_timeout hending) hno
      | exhausted =>
          rw [h.flag_exhausted hending] at hclosed
          exact absurd (Option.some.inj hclosed).symm herrno

/-- A read that meets at most one timeout is the next part of the stream. -/
theorem Retried.take (h : Retried length sock (bytes, outcome, sock'))
    (hcalm : timeouts length sock.arrivals ≤ 1) : bytes = sock.stream.take length := by
  cases Nat.le_one_iff_eq_zero_or_eq_one.mp hcalm with
  | inl hnone =>
      cases h with
      | once h hfull => exact h.take hnone
      | error h hshort hflag => exact h.take hnone
      | again h hshort h' =>
          have hempty := h'.append
          rw [h.exhausts hnone hshort] at hempty
          rw [(List.append_eq_nil_iff.mp hempty).1, List.append_nil]
          exact h.take hnone
  | inr hone =>
      cases h with
      | once h hfull => exact absurd hfull (h.interrupted hone).2.1
      | error h hshort hflag => exact absurd (h.interrupted hone).1 hflag
      | again h hshort h' =>
          rw [← h.append, List.take_append, List.take_of_length_le (Nat.le_of_lt hshort)]
          exact congrArg (_ ++ ·) (h'.take (h.interrupted hone).2.2.1)

/-- A read that is complete leaves the connection in the state behind it. -/
theorem Retried.skip (h : Retried length sock (bytes, .complete, sock'))
    (hcalm : timeouts length sock.arrivals ≤ 1) :
    sock' = { sock with arrivals := Arrival.skip length sock.arrivals } := by
  have hlength := h.complete_iff.mp rfl
  generalize houtcome : Outcome.complete = outcome at h
  cases Nat.le_one_iff_eq_zero_or_eq_one.mp hcalm with
  | inl hnone =>
      cases h with
      | once h hfull => exact h.skip hnone hfull
      | error h hshort hflag => cases houtcome
      | again h hshort h' =>
          have hempty := h'.append
          rw [h.exhausts hnone hshort] at hempty
          rw [(List.append_eq_nil_iff.mp hempty).1, List.append_nil] at hlength
          exact absurd hlength (Nat.ne_of_lt hshort)
  | inr hone =>
      cases h with
      | once h hfull => exact absurd hfull (h.interrupted hone).2.1
      | error h hshort hflag => cases houtcome
      | again h hshort h' =>
          obtain ⟨-, -, hnone, hskip, hclosed⟩ := h.interrupted hone
          rw [List.length_append] at hlength
          rw [h'.skip hnone (by omega), hskip, hclosed]

end Reads

section Calls

variable {s s' : Sampler} {call : Call} {published : Option Published}

/-- What a call has done. -/
inductive Called (s : Sampler) (call : Call) : Option Published × Sampler → Prop
  | error {bytes : Bytes} {sock : CliSock}
      (hheader : Retried Recbe.Header.size s.fSock (bytes, .error, sock)) :
      Called s call (none, { s with fSock := sock })
  | lost {bytes body : Bytes} {outcome outcome' : Outcome} {sock sock' : CliSock}
      (hheader : Retried Recbe.Header.size s.fSock (bytes, outcome, sock))
      (hbody : Retried (Recbe.len (fill call.recbe_header Recbe.Header.size bytes)).toNat sock
        (body, outcome', sock'))
      (hlost : outcome = .incomplete ∨ outcome' = .incomplete) :
      Called s call (none, { s with fSock := sock' })
  | sent {header body : Bytes} {outcome : Outcome} {sock sock' : CliSock} {published : Published}
      (hheader : Retried Recbe.Header.size s.fSock (header, .complete, sock))
      (hbody : Retried (Recbe.len header).toNat sock (body, outcome, sock'))
      (hoffered : outcome ≠ .incomplete)
      (hmsg : published.outParts.msg = header ++
        fill (fun i => call.msg (Recbe.Header.size + i)) (Recbe.len header).toNat body) :
      Called s call (some published, { s with fSock := sock' })

theorem fill_of_length (memory : Nat → UInt8) {size : Nat} {bytes : Bytes}
    (h : bytes.length = size) : fill memory size bytes = bytes := by
  rw [fill, h, Nat.sub_self]
  exact List.append_nil bytes

theorem fill_append (memory : Nat → UInt8) {n m : Nat} {front bytes : Bytes}
    (h : front.length = n) :
    fill memory (n + m) (front ++ bytes) = front ++ fill (fun i => memory (n + i)) m bytes := by
  have hleft : n + m - (front ++ bytes).length = m - bytes.length := by
    rw [List.length_append]
    omega
  rw [fill, fill, hleft, List.length_append, h, List.append_assoc, ← List.map_add_range',
    List.map_map]
  rfl

theorem conditionalRun_called {result : Option Published × Sampler}
    (h : conditionalRun s call = some result) : Called s call result := by
  rw [conditionalRun] at h
  obtain ⟨⟨bytes, outcome, sock⟩, hfirst, h⟩ := Option.bind_eq_some_iff.mp h
  have hheader := receiveRetry_retried hfirst
  dsimp only at h
  split at h
  · rename_i herror
    cases h
    rw [herror] at hheader
    exact .error hheader
  · rename_i herror
    obtain ⟨⟨body, outcome', sock'⟩, hsecond, h⟩ := Option.bind_eq_some_iff.mp h
    have hbody := receiveRetry_retried hsecond
    dsimp only at h
    split at h
    · rename_i hlost
      cases h
      exact .lost hheader hbody hlost
    · rename_i hoffered
      cases h
      have hcomplete : outcome = .complete := by
        cases outcome with
        | complete => rfl
        | error => exact absurd rfl herror
        | incomplete => exact absurd (.inl rfl) hoffered
      rw [hcomplete] at hheader
      rw [fill_of_length _ (hheader.complete_iff.mp rfl)] at hbody
      refine .sent hheader hbody (fun h => hoffered (.inr h)) ?_
      rw [outParts, fill_of_length _ (hheader.complete_iff.mp rfl)]

end Calls

section Events

/-- An event as a board sends it. -/
structure Event where
  header : Bytes
  body : Bytes
  hheader : header.length = Recbe.Header.size
  hbody : body.length = (Recbe.len header).toNat

def Event.bytes (event : Event) : Bytes := event.header ++ event.body

/-- The size of the body that the next header of the stream announces. -/
def bodysize (s : Sampler) : Nat := (Recbe.len s.fSock.stream).toNat

/-- The disconnect cuts the body of the next event, no timeout comes before it, and the
`errno` that stands then is not that of a timeout. -/
def CutUnnoticed (s : Sampler) : Prop :=
  s.fSock.stream.length < Recbe.Header.size + bodysize s ∧
  timeout ∉ Arrival.skip Recbe.Header.size s.fSock.arrivals ∧
  ∃ errno, s.fSock.closed.head? = some errno ∧ errno ≠ EAGAIN

/-- The states in which a call does no harm. -/
inductive Orderly (s : Sampler) (call : Call) : Prop
  /-- No whole header arrives any more. -/
  | ended (h : s.fSock.stream.length < Recbe.Header.size)
  /-- Nothing arrives during the call; how long it waits for a body depends on what is in
  the memory of the header. -/
  | idle (rest : List (Arrival UInt8)) (h : s.fSock.arrivals = timeout :: timeout :: rest)
      (hbody : Recbe.len (fill call.recbe_header Recbe.Header.size []) = 0 ∨
        ∃ rest', rest = timeout :: timeout :: rest')
  /-- The header and the body are each interrupted by one timeout at most. -/
  | event (hheader : timeouts Recbe.Header.size s.fSock.arrivals ≤ 1)
      (hbody : timeouts (bodysize s) (Arrival.skip Recbe.Header.size s.fSock.arrivals) ≤ 1)
      (hcut : ¬ CutUnnoticed s)

/-- Every call of a run finds the connection in such a state. -/
def OrderlyRun (s : Sampler) : List Call → Prop
  | [] => True
  | call :: calls =>
      Orderly s call ∧
      ∀ published s', conditionalRun s call = some (published, s') → OrderlyRun s' calls

/-- The stream goes on with the given events, or ends before the next header. -/
def Aligned (events : List Event) (s : Sampler) : Prop :=
  s.fSock.stream.length < Recbe.Header.size ∨
  s.fSock.stream <+: events.flatMap Event.bytes

variable {s s' : Sampler} {call : Call} {published : Option Published}

theorem called_ended (h : Called s call (published, s'))
    (hended : s.fSock.stream.length < Recbe.Header.size) :
    published = none ∧ s'.fSock.stream.length < Recbe.Header.size := by
  cases h with
  | error hheader =>
      refine ⟨rfl, ?_⟩
      rw [← hheader.append, List.length_append] at hended
      exact Nat.lt_of_le_of_lt (Nat.le_add_left _ _) hended
  | lost hheader hbody hlost =>
      refine ⟨rfl, ?_⟩
      rw [← hheader.append, ← hbody.append, List.length_append, List.length_append] at hended
      dsimp only
      omega
  | sent hheader hbody hoffered hmsg =>
      have hlength := hheader.complete_iff.mp rfl
      rw [← hheader.append, List.length_append] at hended
      omega

theorem retried_idle {length : Nat} {rest : List (Arrival UInt8)} {closed : List Int}
    {bytes : Bytes} {outcome : Outcome} {sock : CliSock} (hpos : 0 < length)
    (h : Retried length { arrivals := timeout :: timeout :: rest, closed }
      (bytes, outcome, sock)) :
    bytes = [] ∧ outcome = .incomplete ∧ sock = { arrivals := rest, closed } := by
  cases h with
  | once h hfull =>
      rw [(h.nothing hpos).1] at hfull
      exact absurd hfull (Nat.ne_of_lt hpos)
  | error h hshort hflag =>
      exact absurd List.mem_cons_self (h.of_short hshort hflag).1
  | again h hshort h' =>
      obtain ⟨hbytes, hsock⟩ := h.nothing hpos
      rw [hbytes, List.length_nil, Nat.sub_zero, hsock] at h'
      obtain ⟨hmore, hsock'⟩ := h'.nothing hpos
      rw [hbytes, hmore]
      exact ⟨rfl, if_pos hpos, hsock'⟩

theorem called_idle {rest : List (Arrival UInt8)} (h : Called s call (published, s'))
    (hidle : s.fSock.arrivals = timeout :: timeout :: rest)
    (hbody : Recbe.len (fill call.recbe_header Recbe.Header.size []) = 0 ∨
      ∃ rest', rest = timeout :: timeout :: rest') :
    published = none ∧ s'.fSock.stream = s.fSock.stream := by
  have hsock : s.fSock = { arrivals := timeout :: timeout :: rest, closed := s.fSock.closed } := by
    rw [← hidle]
  have hpos : 0 < Recbe.Header.size := by decide
  cases h with
  | error hheader =>
      rw [hsock] at hheader
      cases (retried_idle hpos hheader).2.1
  | lost hheader hread hlost =>
      rw [hsock] at hheader
      obtain ⟨hbytes, -, hsock'⟩ := retried_idle hpos hheader
      rw [hbytes, hsock'] at hread
      refine ⟨rfl, ?_⟩
      rw [hsock]
      cases Nat.eq_zero_or_pos
        (Recbe.len (fill call.recbe_header Recbe.Header.size [])).toNat with
      | inl hzero =>
          have hnothing := hread.length_le
          rw [hzero, Nat.le_zero, List.length_eq_zero_iff] at hnothing
          have happend := hread.append
          rwa [hnothing] at happend
      | inr hsome =>
          cases hbody with
          | inl hzero =>
              rw [hzero] at hsome
              cases hsome
          | inr hmore =>
              obtain ⟨rest', hrest⟩ := hmore
              rw [hrest] at hread
              rw [(retried_idle hsome hread).2.2, hrest]
              rfl
  | sent hheader hread hoffered hmsg =>
      rw [hsock] at hheader
      cases (retried_idle hpos hheader).2.1

theorem Retried.drop {length : Nat} {sock sock' : CliSock} {bytes : Bytes} {outcome : Outcome}
    (h : Retried length sock (bytes, outcome, sock')) (hcalm : timeouts length sock.arrivals ≤ 1) :
    sock'.stream = sock.stream.drop length := by
  have happend := h.append
  rw [h.take hcalm] at happend
  nth_rewrite 2 [← List.take_append_drop length sock.stream] at happend
  exact List.append_cancel_left happend

theorem Retried.complete_iff_long {length : Nat} {sock sock' : CliSock} {bytes : Bytes}
    {outcome : Outcome} (h : Retried length sock (bytes, outcome, sock'))
    (hcalm : timeouts length sock.arrivals ≤ 1) :
    outcome = .complete ↔ length ≤ sock.stream.length := by
  rw [h.complete_iff, h.take hcalm, List.length_take, min_eq_left_iff]

theorem len_take (bs : Bytes) : Recbe.len (bs.take Recbe.Header.size) = Recbe.len bs := by
  rw [Recbe.len, Recbe.len, Recbe.ntoh, Recbe.ntoh, List.drop_take, List.take_take]
  rfl

/-- The first of two parts of a stream that has arrived far enough. -/
theorem take_drop_of_prefix {stream front rest : Bytes} (h : stream <+: front ++ rest)
    (hlong : front.length ≤ stream.length) :
    stream.take front.length = front ∧ stream.drop front.length <+: rest := by
  obtain ⟨missing, h⟩ := h
  have htake := congrArg (List.take front.length) h
  have hdrop := congrArg (List.drop front.length) h
  rw [List.take_append_of_le_length hlong, List.take_left] at htake
  rw [List.drop_append_of_le_length hlong, List.drop_left] at hdrop
  exact ⟨htake, missing, hdrop⟩

/-- The next event of a stream that has not ended. -/
theorem exists_event {stream : Bytes} {events : List Event}
    (hlong : Recbe.Header.size ≤ stream.length) (h : stream <+: events.flatMap Event.bytes) :
    ∃ event later, events = event :: later ∧ stream.take Recbe.Header.size = event.header ∧
      stream.drop Recbe.Header.size <+: event.body ++ later.flatMap Event.bytes := by
  cases events with
  | nil =>
      rw [List.flatMap_nil, List.prefix_nil] at h
      rw [h] at hlong
      cases hlong
  | cons event later =>
      rw [List.flatMap_cons, Event.bytes, List.append_assoc] at h
      rw [← event.hheader] at hlong ⊢
      exact ⟨event, later, rfl, take_drop_of_prefix h hlong⟩

theorem called_event {events : List Event} (h : Called s call (published, s'))
    (hlong : Recbe.Header.size ≤ s.fSock.stream.length)
    (hstream : s.fSock.stream <+: events.flatMap Event.bytes)
    (hheader : timeouts Recbe.Header.size s.fSock.arrivals ≤ 1)
    (hbody : timeouts (bodysize s) (Arrival.skip Recbe.Header.size s.fSock.arrivals) ≤ 1)
    (hcut : ¬ CutUnnoticed s) :
    published = none ∧ s'.fSock.stream = [] ∨
    ∃ event later p, events = event :: later ∧ published = some p ∧
      p.outParts.msg = event.bytes ∧ s'.fSock.stream <+: later.flatMap Event.bytes := by
  obtain ⟨event, later, hevents, hhead, hrest⟩ := exists_event hlong hstream
  cases h with
  | error hread => cases (hread.complete_iff_long hheader).mpr hlong
  | lost hread hread' hlost =>
      have hcomplete := (hread.complete_iff_long hheader).mpr hlong
      rw [hcomplete] at hread hlost
      rw [fill_of_length _ (hread.complete_iff.mp rfl), hread.take hheader, len_take,
        hread.skip hheader] at hread'
      have hincomplete := hlost.resolve_left nofun
      have hshort := mt (hread'.complete_iff_long hbody).mpr (by rw [hincomplete]; nofun)
      refine .inl ⟨rfl, ?_⟩
      rw [hread'.drop hbody]
      exact List.drop_of_length_le (Nat.le_of_not_le hshort)
  | sent hread hread' hoffered hmsg =>
      have hheader_eq := hread.take hheader
      have hsock := hread.skip hheader
      have hstream' := hread.drop hheader
      rw [hheader_eq, len_take, hsock] at hread'
      rw [hheader_eq, len_take] at hmsg
      rename_i body outcome sock sock' published'
      cases outcome with
      | incomplete => exact absurd rfl hoffered
      | error =>
          have hshort := mt (hread'.complete_iff_long hbody).mpr nofun
          refine absurd ⟨?_, hread'.of_error⟩ hcut
          rw [hsock] at hstream'
          rw [hstream', List.length_drop] at hshort
          rw [bodysize]
          omega
      | complete =>
          have hlen : (Recbe.len s.fSock.stream).toNat = event.body.length := by
            rw [event.hbody, ← hhead, len_take]
          rw [hsock] at hstream'
          have hlong' := (hread'.complete_iff_long hbody).mp rfl
          rw [hlen, hstream'] at hlong'
          have hparts := take_drop_of_prefix hrest hlong'
          refine .inr ⟨event, later, published', hevents, rfl, ?_, ?_⟩
          · rw [hmsg, hhead, fill_of_length _ (hread'.complete_iff.mp rfl), hread'.take hbody,
              hstream', hlen, hparts.1, Event.bytes]
          · rw [hread'.drop hbody, hstream', hlen]
            exact hparts.2

/-- Where the cut goes unnoticed, the memory of the message ends the event. -/
theorem called_cut (h : Called s call (published, s'))
    (hlong : Recbe.Header.size ≤ s.fSock.stream.length)
    (hheader : timeouts Recbe.Header.size s.fSock.arrivals ≤ 1) (hcut : CutUnnoticed s) :
    ∃ p, published = some p ∧
      p.outParts.msg = fill call.msg (Recbe.Header.size + bodysize s) s.fSock.stream := by
  obtain ⟨hshort, hno, errno, hclosed, herrno⟩ := hcut
  have hcalm : timeouts (bodysize s) (Arrival.skip Recbe.Header.size s.fSock.arrivals) ≤ 1 := by
    rw [timeouts_eq_zero hno]
    exact Nat.zero_le 1
  cases h with
  | error hread => cases (hread.complete_iff_long hheader).mpr hlong
  | lost hread hread' hlost =>
      have hcomplete := (hread.complete_iff_long hheader).mpr hlong
      rw [hcomplete] at hread hlost
      rw [hread.skip hheader] at hread'
      exact absurd (hlost.resolve_left nofun) (hread'.not_incomplete hno hclosed herrno)
  | sent hread hread' hoffered hmsg =>
      have hstream := hread.drop hheader
      rw [hread.take hheader, len_take, hread.skip hheader] at hread'
      rw [hread.skip hheader] at hstream
      have hlength := List.length_take_of_le hlong
      have hall : (s.fSock.stream.drop Recbe.Header.size).length ≤ bodysize s := by
        rw [List.length_drop]
        omega
      refine ⟨_, rfl, ?_⟩
      rw [hmsg, hread.take hheader, len_take, hread'.take hcalm, hstream, ← bodysize,
        List.take_of_length_le hall, ← fill_append call.msg hlength, List.take_append_drop]

/-- One call in an orderly state. -/
theorem Aligned.step {events : List Event} (h : Aligned events s) (horderly : Orderly s call)
    (hcall : conditionalRun s call = some (published, s')) :
    published = none ∧ Aligned events s' ∨
    ∃ event later p, events = event :: later ∧ published = some p ∧
      p.outParts.msg = event.bytes ∧ Aligned later s' := by
  have hcalled := conditionalRun_called hcall
  by_cases hended : s.fSock.stream.length < Recbe.Header.size
  · have hnext := called_ended hcalled hended
    exact .inl ⟨hnext.1, .inl hnext.2⟩
  · cases horderly with
    | ended hnow => exact absurd hnow hended
    | idle rest hidle hbody =>
        have hnext := called_idle hcalled hidle hbody
        refine .inl ⟨hnext.1, ?_⟩
        rw [Aligned, hnext.2]
        exact h
    | event hheader hbody hcut =>
        cases called_event hcalled (Nat.le_of_not_lt hended) (h.resolve_left hended) hheader hbody
            hcut with
        | inl hlost =>
            refine .inl ⟨hlost.1, .inl ?_⟩
            rw [hlost.2]
            decide
        | inr hsent =>
            obtain ⟨event, later, p, hevents, hpublished, hmsg, hrest⟩ := hsent
            exact .inr ⟨event, later, p, hevents, hpublished, hmsg, .inr hrest⟩

/-- The calls of a run. -/
theorem Aligned.run {events : List Event} {calls : List Call} (h : Aligned events s)
    (horderly : OrderlyRun s calls) :
    (run s calls).map (·.outParts.msg) <+: events.map Event.bytes := by
  induction calls generalizing s events with
  | nil => exact List.nil_prefix
  | cons call calls ih =>
      rw [RecbeSampler.run]
      cases hcall : conditionalRun s call with
      | none => exact List.nil_prefix
      | some next =>
          obtain ⟨published, s'⟩ := next
          have hrest := horderly.2 published s' hcall
          cases h.step horderly.1 hcall with
          | inl hnone =>
              rw [hnone.1]
              exact ih hnone.2 hrest
          | inr hsome =>
              obtain ⟨event, later, p, hevents, hpublished, hmsg, haligned⟩ := hsome
              rw [hpublished, hevents]
              dsimp only
              rw [Option.toList_some, List.singleton_append, List.map_cons,
                List.map_cons, hmsg]
              exact (List.prefix_cons_inj event.bytes).mpr (ih haligned hrest)

/-- What a sampler publishes in a run whose calls all find the connection in an orderly
state. -/
theorem published_events_of_orderly_run (s : Sampler) (events : List Event) (calls : List Call)
    (hstream : s.fSock.stream <+: events.flatMap Event.bytes) (horderly : OrderlyRun s calls) :
    (run s calls).map (·.outParts.msg) <+: events.map Event.bytes :=
  Aligned.run (.inr hstream) horderly

end Events

section Inputs

/-- An event with a body of zeros, in which a header without a body can be read. -/
def zeros : Event where
  header := [1, 7, 0, 0, 0, 0, 0, 12, 0, 0, 0, 1]
  body := List.replicate 12 0
  hheader := rfl
  hbody := rfl

/-- Two timeouts before the body make it the next header, and a disconnect within the body
makes what the memory held the end of the event. -/
theorem published_events_not_whole :
    (¬ ∀ (s : Sampler) (events : List Event) (calls : List Call), s.fSock.closed = [] →
      s.fSock.stream <+: events.flatMap Event.bytes →
      ((run s calls).map (·.outParts.msg)).Sublist (events.map Event.bytes)) ∧
    ¬ ∀ (s : Sampler) (events : List Event) (calls : List Call), timeout ∉ s.fSock.arrivals →
      s.fSock.stream <+: events.flatMap Event.bytes →
      ((run s calls).map (·.outParts.msg)).Sublist (events.map Event.bytes) := by
  constructor
  · intro hall
    have hsub := hall
      { fSock := { arrivals := [.data 1 [7, 0, 0, 0, 0, 0, 12, 0, 0, 0, 1], .timeout, .timeout,
        .data 0 (List.replicate 11 0)] } }
      [zeros] [{}, {}] rfl (by decide)
    revert hsub
    decide +kernel
  · intro hall
    have hsub := hall
      { fSock := { arrivals := [.data 1 [7, 0, 0, 0, 0, 0, 12, 0, 0, 0, 1, 0]], closed := [0] } }
      [zeros] [{ msg := fun _ => 1 }] (by decide) (by decide)
    revert hsub
    decide +kernel

/-- A header and a body with one timeout in each. -/
theorem published_events_of_orderly_run_two_timeouts :
    let s : Sampler := { fSock := { arrivals := [.data 1 [7, 0, 0, 0, 0], .timeout,
      .data 0 [12, 0, 0, 0, 1, 0, 0], .timeout, .data 0 (List.replicate 9 0)] } }
    (run s [{}]).map (·.outParts.msg) <+: [zeros].map Event.bytes ∧
    (run s [{}]).length = 1 := by
  intro s
  refine ⟨published_events_of_orderly_run s [zeros] [{}] (by decide) ⟨?_, ?_⟩, ?_⟩
  · exact .event (by decide) (by decide) fun h => absurd h.1 (by decide)
  · exact fun _ _ _ => True.intro
  · decide +kernel

end Inputs

end RecbeSampler
end Userworks
