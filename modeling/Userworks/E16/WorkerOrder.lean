import Userworks.E16.TaskProcessorMT

/-!
The order behind the merger. Splitter and merger go round the workers in step, so
the messages that are handled are those that were dispatched, in their order, as
long as no worker fails to send. A message that is lost lets the later ones of its
worker move up by one turn.
-/
namespace Userworks.E16.TaskProcessor

variable {ε σ α β : Type} {h : Handlers ε σ α β} {fNThreads : Nat} {d : σ}
  {s s' : TaskProcessor ε σ α β} {os new : List (Observation α β)}

/-! ### What was seen, step by step -/

theorem dispatched_append (os new : List (Observation α β)) :
    dispatched (os ++ new) = dispatched os ++ dispatched new := List.filterMap_append

theorem handled_append (os new : List (Observation α β)) :
    handled (os ++ new) = handled os ++ handled new := List.filterMap_append

theorem attempts_append (i : Nat) (os new : List (Observation α β)) :
    attempts i (os ++ new) = attempts i os ++ attempts i new := List.filterMap_append

theorem delivered_append (i : Nat) (os new : List (Observation α β)) :
    delivered i (os ++ new) = delivered i os ++ delivered i new := by
  rw [delivered, attempts_append, List.filter_append, List.map_append]
  rfl

theorem NoneLost.left (hnone : NoneLost (os ++ new)) : NoneLost os :=
  fun i msg hmem => hnone i msg (List.mem_append_left _ hmem)

/-- When none was lost, what a worker is done with was delivered. -/
theorem NoneLost.delivered (hnone : NoneLost os) (i : Nat) :
    delivered i os = (attempts i os).map (·.1) := by
  rw [TaskProcessor.delivered, List.filter_eq_self.mpr]
  intro a ha
  obtain ⟨o, hmem, heq⟩ := List.mem_filterMap.mp ha
  cases o with
  | dispatched msg => cases heq
  | handled msg => cases heq
  | lost j msg => exact absurd hmem (hnone j msg)
  | sent j msg =>
      change (if j = i then some (msg, true) else none) = some a at heq
      by_cases hj : j = i
      · rw [if_pos hj] at heq
        cases heq
        rfl
      · rw [if_neg hj] at heq
        cases heq

theorem setWorker_self (s : TaskProcessor ε σ α β) (i : Nat) (w : Worker α β) :
    (s.setWorker i w).workers i = w := by simp only [setWorker, Function.update_self]

theorem setWorker_other {i j : Nat} (hj : j ≠ i) (s : TaskProcessor ε σ α β) (w : Worker α β) :
    (s.setWorker i w).workers j = s.workers j := by
  simp only [setWorker, Function.update_of_ne hj]

theorem waiting_input (h : Handlers ε σ α β) (w : Worker α β) (msg : α) :
    waiting h { w with input := w.input ++ [msg] } = waiting h w ++ [h.handleInput msg] := by
  simp only [waiting, List.map_append, List.map_singleton]
  cases w.payload with
  | nothing => rfl
  | received msg' => rfl
  | made msg' => rfl

/-! ### The books of a run -/

/-- The device takes messages. -/
def Live (h : Handlers ε σ α β) (s : TaskProcessor ε σ α β) : Prop :=
  ∃ d, s.device = .ok d ∧ h.stopRequested d = false

/-- Where the messages are while the device takes messages. -/
structure Books (h : Handlers ε σ α β) (fNThreads : Nat) (os : List (Observation α β))
    (s : TaskProcessor ε σ α β) : Prop where
  lanes : ∀ i, lane (turnOf fNThreads) i ((dispatched os).map h.handleInput) =
    (attempts i os).map (·.1) ++ waiting h (s.workers i)
  outputs : ∀ i, lane (turnOf fNThreads) i (handled os) ++ (s.workers i).output = delivered i os
  received : s.newStatePending = false →
    s.fNReceived = ((dispatched os).length + s.sending.toList.length) % 2 ^ 64
  merged : s.fNOutput = (handled os).length % 2 ^ 64

structure Accounted (h : Handlers ε σ α β) (fNThreads : Nat) (d : σ)
    (os : List (Observation α β)) (s : TaskProcessor ε σ α β) : Prop where
  device : s.device = (handled os).foldlM h.handleOutput d
  sending : ∀ i msg, s.sending = some (i, msg) → i = turnOf fNThreads (dispatched os).length
  books : Live h s → Books h fNThreads os s

/-- A step of worker `i` with its own channels. -/
theorem Books.setWorker {i : Nat} {w : Worker α β} (hbooks : Books h fNThreads os s)
    (hdispatched : dispatched new = []) (hhandled : handled new = [])
    (hothers : ∀ j ≠ i, attempts j new = [])
    (hwaiting : (attempts i new).map (·.1) ++ waiting h w = waiting h (s.workers i))
    (houtput : w.output = (s.workers i).output ++ delivered i new) :
    Books h fNThreads (os ++ new) (s.setWorker i w) := by
  have hdelivered : ∀ j ≠ i, delivered j new = [] := by
    intro j hj
    rw [delivered, hothers j hj]
    rfl
  refine ⟨?_, ?_, ?_, ?_⟩
  · intro j
    rw [dispatched_append, hdispatched, List.append_nil, attempts_append, List.map_append,
      hbooks.lanes, List.append_assoc]
    by_cases hj : j = i
    · subst hj
      rw [setWorker_self, hwaiting]
    · rw [setWorker_other hj, hothers j hj]
      rfl
  · intro j
    rw [handled_append, hhandled, List.append_nil, delivered_append, ← hbooks.outputs]
    by_cases hj : j = i
    · subst hj
      rw [setWorker_self, houtput, List.append_assoc]
    · rw [setWorker_other hj, hdelivered j hj, List.append_nil]
  · rw [dispatched_append, hdispatched, List.append_nil]
    exact hbooks.received
  · rw [handled_append, hhandled, List.append_nil]
    exact hbooks.merged

theorem Books.dispatch {i : Nat} {msg : α} (hbooks : Books h fNThreads os s)
    (hsending : s.sending = some (i, msg)) (hi : i = turnOf fNThreads (dispatched os).length) :
    Books h fNThreads (os ++ [.dispatched msg])
      { s.setWorker i { s.workers i with input := (s.workers i).input ++ [msg] } with
        sending := none } := by
  have hnew : dispatched (os ++ [.dispatched msg]) = dispatched os ++ [msg] :=
    dispatched_append _ _
  have hturn : turnOf fNThreads ((dispatched os).map h.handleInput).length = i := by
    rw [List.length_map, hi]
  refine ⟨?_, ?_, ?_, ?_⟩
  · intro j
    rw [hnew, List.map_append, List.map_singleton, attempts_append]
    change _ = (attempts j os ++ []).map _ ++ waiting h (Function.update s.workers _ _ j)
    rw [List.append_nil]
    by_cases hj : j = i
    · subst hj
      rw [lane_concat_self hturn, hbooks.lanes, Function.update_self, List.append_assoc,
        waiting_input]
    · rw [lane_concat_other (by rw [hturn]; exact fun heq => hj heq.symm), hbooks.lanes,
        Function.update_of_ne hj]
  · intro j
    rw [handled_append, delivered_append]
    change lane _ j (handled os ++ []) ++ (Function.update s.workers _ _ j).output =
      delivered j os ++ []
    rw [List.append_nil, List.append_nil, ← hbooks.outputs]
    by_cases hj : j = i
    · subst hj
      rw [Function.update_self]
    · rw [Function.update_of_ne hj]
  · intro hpending
    rw [hnew, List.length_append, List.length_singleton]
    have hreceived := hbooks.received hpending
    rw [hsending] at hreceived
    exact hreceived
  · rw [handled_append]
    change _ = (handled os ++ []).length % _
    rw [List.append_nil]
    exact hbooks.merged

theorem Books.merge {msg : β} {rest : List β} {device : Except ε σ}
    (hbooks : Books h fNThreads os s)
    (houtput : (s.workers (s.fNOutput % fNThreads)).output = msg :: rest) :
    Books h fNThreads (os ++ [.handled msg])
      { s.setWorker (s.fNOutput % fNThreads)
          { s.workers (s.fNOutput % fNThreads) with output := rest } with
        device := device
        fNOutput := (s.fNOutput + 1) % 2 ^ 64 } := by
  have hnew : handled (os ++ [.handled msg]) = handled os ++ [msg] := handled_append _ _
  have hturn : turnOf fNThreads (handled os).length = s.fNOutput % fNThreads := by
    rw [turnOf, ← hbooks.merged]
  refine ⟨?_, ?_, ?_, ?_⟩
  · intro j
    rw [dispatched_append, attempts_append]
    change lane _ j ((dispatched os ++ []).map _) =
      (attempts j os ++ []).map _ ++ waiting h (Function.update s.workers _ _ j)
    rw [List.append_nil, List.append_nil, hbooks.lanes]
    by_cases hj : j = s.fNOutput % fNThreads
    · rw [hj, Function.update_self]
      rfl
    · rw [Function.update_of_ne hj]
  · intro j
    rw [hnew, delivered_append]
    change _ ++ (Function.update s.workers _ _ j).output = delivered j os ++ []
    rw [List.append_nil, ← hbooks.outputs]
    by_cases hj : j = s.fNOutput % fNThreads
    · rw [lane_concat_self (hturn.trans hj.symm), hj, Function.update_self, houtput,
        List.append_assoc]
      rfl
    · rw [lane_concat_other (by rw [hturn]; exact fun heq => hj heq.symm),
        Function.update_of_ne hj]
  · intro hpending
    rw [dispatched_append]
    change _ = ((dispatched os ++ []).length + _) % _
    rw [List.append_nil]
    exact hbooks.received hpending
  · rw [hnew, List.length_append, List.length_singleton]
    change (s.fNOutput + 1) % _ = _
    rw [hbooks.merged, Nat.mod_add_mod]

/-- A step that changes neither the device nor what was dispatched or handled. -/
theorem Accounted.internal {new : List (Observation α β)}
    (haccounted : Accounted h fNThreads d os s) (hdevice : s'.device = s.device)
    (hsending : s'.sending = s.sending) (hdispatched : dispatched new = [])
    (hhandled : handled new = [])
    (hbooks : Books h fNThreads os s → Books h fNThreads (os ++ new) s') :
    Accounted h fNThreads d (os ++ new) s' := by
  refine ⟨?_, ?_, ?_⟩
  · rw [hdevice, handled_append, hhandled, List.append_nil]
    exact haccounted.device
  · rw [hsending, dispatched_append, hdispatched, List.append_nil]
    exact haccounted.sending
  · rintro ⟨d', hlive⟩
    rw [hdevice] at hlive
    exact hbooks (haccounted.books ⟨d', hlive⟩)

theorem Accounted.step (haccounted : Accounted h fNThreads d os s)
    (hstep : Step h fNThreads s new s') : Accounted h fNThreads d (os ++ new) s' := by
  cases hstep with
  | accept msg hdevice hstop hpending hsending =>
      have hbooks := haccounted.books ⟨_, hdevice, hstop⟩
      have hreceived := hbooks.received hpending
      rw [hsending] at hreceived
      rw [List.append_nil]
      refine ⟨haccounted.device, ?_, ?_⟩
      · intro i msg' heq
        cases heq
        rw [turnOf, hreceived]
        rfl
      · intro _
        refine ⟨hbooks.lanes, hbooks.outputs, ?_, hbooks.merged⟩
        intro _
        change (s.fNReceived + 1) % _ = _
        rw [hreceived, Nat.mod_add_mod]
        rfl
  | dispatch hdevice hsending =>
      refine ⟨?_, ?_, ?_⟩
      · rw [handled_append]
        change s.device = (handled os ++ []).foldlM _ _
        rw [List.append_nil]
        exact haccounted.device
      · intro i' msg' heq
        cases heq
      · intro hlive
        exact (haccounted.books hlive).dispatch hsending (haccounted.sending _ _ hsending)
  | giveUp hdevice hsending hstop =>
      rw [List.append_nil]
      refine ⟨haccounted.device, ?_, ?_⟩
      · intro i' msg' heq
        cases heq
      · rintro ⟨d', hlive, hrunning⟩
        have hbooks := haccounted.books ⟨d', hlive, hrunning⟩
        have hpending : s.newStatePending = true := by
          cases Except.ok.inj (hdevice.symm.trans hlive)
          exact hstop.resolve_left (by rw [hrunning]; exact Bool.false_ne_true)
        refine ⟨hbooks.lanes, hbooks.outputs, ?_, hbooks.merged⟩
        intro hnot
        exact absurd (hpending.symm.trans hnot) (Bool.false_ne_true ∘ Eq.symm)
  | receive hdevice hpending hpayload hinput =>
      refine haccounted.internal rfl rfl rfl rfl fun hbooks =>
        hbooks.setWorker rfl rfl (fun _ _ => rfl) ?_ (List.append_nil _).symm
      simp only [waiting, hpayload, hinput]
      rfl
  | process hdevice hpayload hstop =>
      refine haccounted.internal rfl rfl rfl rfl fun hbooks =>
        hbooks.setWorker rfl rfl (fun _ _ => rfl) ?_ (List.append_nil _).symm
      simp only [waiting, hpayload]
      rfl
  | skip hdevice hpayload hstop =>
      refine ⟨?_, ?_, ?_⟩
      · rw [List.append_nil]
        exact haccounted.device
      · rw [List.append_nil]
        exact haccounted.sending
      · rintro ⟨d', hlive, hrunning⟩
        cases Except.ok.inj (hdevice.symm.trans hlive)
        exact absurd (hstop.symm.trans hrunning) (Bool.false_ne_true ∘ Eq.symm)
  | @send _ i msg hdevice hpayload =>
      have hself : attempts i [Observation.sent (α := α) i msg] = [(msg, true)] := by
        simp [attempts]
      refine haccounted.internal rfl rfl rfl rfl fun hbooks =>
        hbooks.setWorker rfl rfl (fun j hj => ?_) ?_ ?_
      · simp [attempts, hj.symm]
      · rw [hself]
        simp only [waiting, hpayload]
        rfl
      · rw [delivered, hself]
        rfl
  | @lose _ i msg hdevice hpayload =>
      have hself : attempts i [Observation.lost (α := α) i msg] = [(msg, false)] := by
        simp [attempts]
      refine haccounted.internal rfl rfl rfl rfl fun hbooks =>
        hbooks.setWorker rfl rfl (fun j hj => ?_) ?_ ?_
      · simp [attempts, hj.symm]
      · rw [hself]
        simp only [waiting, hpayload]
        rfl
      · rw [delivered, hself]
        exact (List.append_nil _).symm
  | @merge d' msg rest hdevice hpending houtput =>
      have hdispatched :
          dispatched (os ++ if h.stopRequested d' then [] else [.handled msg]) = dispatched os := by
        rw [dispatched_append]
        split
        · exact List.append_nil _
        · exact List.append_nil _
      refine ⟨?_, ?_, ?_⟩
      · have hfold := haccounted.device.symm.trans hdevice
        rw [handled_append]
        split
        · next hstop =>
            change h.handleOutput d' msg = (handled os ++ []).foldlM _ _
            rw [List.append_nil, hfold, h.stopped d' msg hstop]
        · change h.handleOutput d' msg = (handled os ++ [msg]).foldlM _ _
          rw [List.foldlM_append, hfold]
          exact (bind_pure _).symm
      · rw [hdispatched]
        exact haccounted.sending
      · rintro ⟨d'', hlive, hrunning⟩
        have hstop : h.stopRequested d' = false := by
          by_contra hstop
          rw [Bool.not_eq_false] at hstop
          have hsame := (h.stopped d' msg hstop).symm.trans hlive
          cases Except.ok.inj hsame
          exact absurd (hstop.symm.trans hrunning) (Bool.false_ne_true ∘ Eq.symm)
        rw [if_neg (by rw [hstop]; exact Bool.false_ne_true)]
        exact (haccounted.books ⟨d', hdevice, hstop⟩).merge houtput
  | newState =>
      rw [List.append_nil]
      refine ⟨haccounted.device, haccounted.sending, ?_⟩
      intro hlive
      have hbooks := haccounted.books hlive
      refine ⟨hbooks.lanes, hbooks.outputs, ?_, hbooks.merged⟩
      intro hpending
      cases hpending

theorem accounted (hreachable : Reachable h fNThreads d os s) :
    Accounted h fNThreads d os s := by
  induction hreachable with
  | start =>
      refine ⟨rfl, ?_, ?_⟩
      · intro i msg heq
        cases heq
      · intro _
        exact ⟨fun i => rfl, fun i => rfl, fun _ => rfl, rfl⟩
  | next _ hstep ih => exact ih.step hstep

/-! ### The order -/

/-- A handled message is the first of what its worker delivered and the merger has not taken. -/
theorem Books.handled_next (hbooks : Books h fNThreads os s) {msg : β} {rest : List β}
    (houtput : (s.workers (s.fNOutput % fNThreads)).output = msg :: rest) (i : Nat) :
    lane (turnOf fNThreads) i (handled os ++ [msg]) <+: delivered i os := by
  have hturn : turnOf fNThreads (handled os).length = s.fNOutput % fNThreads := by
    rw [turnOf, ← hbooks.merged]
  rw [← hbooks.outputs]
  by_cases hi : i = s.fNOutput % fNThreads
  · rw [lane_concat_self (hturn.trans hi.symm), hi, houtput]
    exact (List.prefix_append_right_inj _).mpr ⟨rest, rfl⟩
  · rw [lane_concat_other (by rw [hturn]; exact fun heq => hi heq.symm)]
    exact List.prefix_append _ _

/-- What a step hands to the device, while it takes messages. -/
theorem Step.handled_cases (hstep : Step h fNThreads s new s') :
    (handled new = [] ∧ s'.device = s.device) ∨
      ∃ d msg rest, s.device = .ok d ∧ h.stopRequested d = false ∧
        (s.workers (s.fNOutput % fNThreads)).output = msg :: rest ∧
        new = [.handled msg] ∧ s'.device = h.handleOutput d msg := by
  cases hstep with
  | @merge d' msg rest hdevice hpending houtput =>
      cases hstop : h.stopRequested d' with
      | true => exact Or.inl ⟨rfl, (h.stopped d' msg hstop).trans hdevice.symm⟩
      | false => exact Or.inr ⟨d', msg, rest, hdevice, hstop, houtput, rfl, rfl⟩
  | _ => exact Or.inl ⟨rfl, rfl⟩

theorem handled_isPrefix (hreachable : Reachable h fNThreads d os s) (hnone : NoneLost os) :
    handled os <+: (dispatched os).map h.handleInput := by
  induction hreachable with
  | start => exact List.nil_prefix
  | @next s s' os new hreachable hstep ih =>
      have hbefore := ih hnone.left
      rw [dispatched_append, List.map_append, handled_append]
      cases hstep.handled_cases with
      | inl hnothing =>
          rw [hnothing.1, List.append_nil]
          exact hbefore.trans (List.prefix_append _ _)
      | inr hmerge =>
          obtain ⟨d', msg, rest, hdevice, hstop, houtput, rfl, -⟩ := hmerge
          have hbooks := (accounted hreachable).books ⟨d', hdevice, hstop⟩
          refine (?_ : _ <+: (dispatched os).map h.handleInput).trans (List.prefix_append _ _)
          refine prefix_of_each_lane (g := turnOf fNThreads) fun i => ?_
          refine (hbooks.handled_next houtput i).trans ?_
          rw [hnone.left.delivered, hbooks.lanes]
          exact List.prefix_append _ _

/-- As long as no worker fails to send, the messages are handled in the order of their dispatch,
whatever the threads do when, and the device is as they leave it one after the other. -/
theorem handled_in_order (h : Handlers ε σ α β) (fNThreads : Nat) (d : σ)
    {s : TaskProcessor ε σ α β} {os : List (Observation α β)}
    (hreachable : Reachable h fNThreads d os s) (hnone : NoneLost os) :
    handled os <+: (dispatched os).map h.handleInput ∧
      s.device = (handled os).foldlM h.handleOutput d :=
  ⟨handled_isPrefix hreachable hnone, (accounted hreachable).device⟩

/-- Two workers that add ten, and a device that keeps what it gets. -/
def tens : Handlers Unit (List Nat) Nat Nat where
  stopRequested := fun _ => false
  handleInput := fun msg => msg + 10
  handleOutput := fun d msg => .ok (d ++ [msg])
  stopped := fun _ _ hstop => absurd hstop Bool.false_ne_true

/-- The second worker is done before the first one has begun. -/
theorem handled_in_order_overtaken : ∃ os s, Reachable tens 2 [] os s ∧ handled os = [11, 12] ∧
    handled os <+: (dispatched os).map tens.handleInput ∧
    s.device = (handled os).foldlM tens.handleOutput [] := by
  have hdispatched := ((((show Reachable tens 2 [] [] _ from .start).next
    (.accept 1 rfl rfl rfl rfl)).next (.dispatch rfl rfl)).next
    (.accept 2 rfl rfl rfl rfl)).next (.dispatch rfl rfl)
  have hsecond := ((hdispatched.next (.receive (i := 1) rfl rfl rfl rfl)).next
    (.process (i := 1) rfl rfl rfl)).next (.send (i := 1) rfl rfl)
  have hfirst := ((hsecond.next (.receive (i := 0) rfl rfl rfl rfl)).next
    (.process (i := 0) rfl rfl rfl)).next (.send (i := 0) rfl rfl)
  have hmerged := (hfirst.next (.merge rfl rfl rfl)).next (.merge rfl rfl rfl)
  exact ⟨_, _, hmerged, rfl, handled_in_order tens 2 [] hmerged (by simp [NoneLost, tens])⟩

/-! ### Losses -/

/-- The place in a list of what its filter has at place `t`: `t` and what was left out before. -/
theorem getElem?_filter {γ : Type} (p : γ → Bool) (xs : List γ) {t : Nat} {x : γ}
    (hx : (xs.filter p)[t]? = some x) :
    ∃ j, xs[j]? = some x ∧ j = t + (xs.take j).countP fun y => !p y := by
  induction xs generalizing t with
  | nil => cases hx
  | cons y ys ih =>
      cases hy : p y with
      | false =>
          rw [List.filter_cons_of_neg (by rw [hy]; exact Bool.false_ne_true)] at hx
          obtain ⟨j, hj, hplace⟩ := ih hx
          refine ⟨j + 1, hj, ?_⟩
          rw [List.take_succ_cons, List.countP_cons_of_pos (by rw [hy]; rfl)]
          omega
      | true =>
          rw [List.filter_cons_of_pos hy] at hx
          cases t with
          | zero => exact ⟨0, hx, rfl⟩
          | succ t =>
              obtain ⟨j, hj, hplace⟩ := ih hx
              refine ⟨j + 1, hj, ?_⟩
              rw [List.take_succ_cons,
                List.countP_cons_of_neg (by rw [hy]; exact Bool.false_ne_true)]
              omega

/-- The message handled as number `k` is number `k'` of those that were dispatched: of the same
worker, and as many of its turns later as its messages before `k'` were lost. -/
def Displaced (h : Handlers ε σ α β) (fNThreads : Nat) (os : List (Observation α β))
    (k k' : Nat) : Prop :=
  turnOf fNThreads k' = turnOf fNThreads k ∧
    turn (turnOf fNThreads) k' = turn (turnOf fNThreads) k +
      ((attempts (turnOf fNThreads k) os).take (turn (turnOf fNThreads) k')).countP
        (fun attempt => !attempt.2) ∧
    ∃ msg, (handled os)[k]? = some msg ∧
      ((dispatched os).map h.handleInput)[k']? = some msg ∧
      (attempts (turnOf fNThreads k) os)[turn (turnOf fNThreads) k']? = some (msg, true)

theorem Displaced.extend {k k' : Nat} (hdisplaced : Displaced h fNThreads os k k')
    (new : List (Observation α β)) : Displaced h fNThreads (os ++ new) k k' := by
  obtain ⟨hworker, hturn, msg, hhandled, hdispatched, hattempt⟩ := hdisplaced
  have hshort := (List.getElem?_eq_some_iff.mp hattempt).1
  refine ⟨hworker, ?_, msg, ?_, ?_, ?_⟩
  · rw [attempts_append, List.take_append_of_le_length (Nat.le_of_lt hshort)]
    exact hturn
  · rw [handled_append]
    exact List.getElem?_append_left (List.getElem?_eq_some_iff.mp hhandled).1 ▸ hhandled
  · rw [dispatched_append, List.map_append]
    exact List.getElem?_append_left (List.getElem?_eq_some_iff.mp hdispatched).1 ▸ hdispatched
  · rw [attempts_append]
    exact List.getElem?_append_left hshort ▸ hattempt

theorem Displaced.le {k k' : Nat} (hdisplaced : Displaced h fNThreads os k k') : k ≤ k' := by
  by_contra hlt
  have hearlier := turn_lt hdisplaced.1 (Nat.lt_of_not_le hlt)
  have hturn := hdisplaced.2.1
  omega

theorem Books.displaced (hbooks : Books h fNThreads os s) {msg : β} {rest : List β}
    (houtput : (s.workers (s.fNOutput % fNThreads)).output = msg :: rest) :
    ∃ k', Displaced h fNThreads (os ++ [.handled msg]) (handled os).length k' := by
  have hworker : turnOf fNThreads (handled os).length = s.fNOutput % fNThreads := by
    rw [turnOf, ← hbooks.merged]
  have hplace : (lane (turnOf fNThreads) (s.fNOutput % fNThreads) (handled os)).length =
      turn (turnOf fNThreads) (handled os).length := by
    rw [turn, hworker]
    exact length_dealt _ _ 0 _ _ List.length_range.symm
  have hdelivered : (delivered (s.fNOutput % fNThreads) os)[turn (turnOf fNThreads)
      (handled os).length]? = some msg := by
    rw [← hbooks.outputs, houtput, ← hplace, List.getElem?_append_right (Nat.le_refl _),
      Nat.sub_self]
    rfl
  rw [delivered, List.getElem?_map, Option.map_eq_some_iff] at hdelivered
  obtain ⟨attempt, hfilter, rfl⟩ := hdelivered
  have hsent : attempt.2 = true := (List.mem_filter.mp (List.mem_of_getElem? hfilter)).2
  obtain ⟨j, hattempt, hj⟩ := getElem?_filter _ _ hfilter
  have hlane : (lane (turnOf fNThreads) (s.fNOutput % fNThreads)
      ((dispatched os).map h.handleInput))[j]? = some attempt.1 := by
    rw [hbooks.lanes, List.getElem?_append_left, List.getElem?_map, hattempt]
    · rfl
    · rw [List.length_map]
      exact (List.getElem?_eq_some_iff.mp hattempt).1
  obtain ⟨hshort, hmsg⟩ := List.getElem?_eq_some_iff.mp hlane
  obtain ⟨k', hk', hsame, hturn, hvalue⟩ := exists_turn hshort
  refine ⟨k', hsame.trans hworker.symm, ?_, attempt.1, ?_, ?_, ?_⟩
  · rw [attempts_append, hworker, hturn]
    change j = _ + ((attempts _ os ++ []).take j).countP _
    rw [List.append_nil]
    exact hj
  · rw [handled_append, List.getElem?_append_right (Nat.le_refl _), Nat.sub_self]
    rfl
  · rw [dispatched_append]
    change ((dispatched os ++ []).map h.handleInput)[k']? = _
    rw [List.append_nil, List.getElem?_eq_getElem hk', ← hvalue, hmsg]
  · rw [attempts_append, hworker, hturn]
    change (attempts _ os ++ [])[j]? = _
    rw [List.append_nil, hattempt, ← hsent]

/-- Whatever was lost, each message that is handled is in the place that the losses of its worker
give it. -/
theorem handled_displaced (h : Handlers ε σ α β) (fNThreads : Nat) (d : σ)
    {s : TaskProcessor ε σ α β} {os : List (Observation α β)}
    (hreachable : Reachable h fNThreads d os s) (k : Nat) (hk : k < (handled os).length) :
    ∃ k' ≥ k, Displaced h fNThreads os k k' := by
  suffices hplaced : ∃ k', Displaced h fNThreads os k k' by
    obtain ⟨k', hdisplaced⟩ := hplaced
    exact ⟨k', hdisplaced.le, hdisplaced⟩
  induction hreachable with
  | start => cases hk
  | @next s s' os new hreachable hstep ih =>
      by_cases hold : k < (handled os).length
      · obtain ⟨k', hdisplaced⟩ := ih hold
        exact ⟨k', hdisplaced.extend new⟩
      · rw [handled_append, List.length_append] at hk
        cases hstep.handled_cases with
        | inl hnothing =>
            rw [hnothing.1] at hk
            exact absurd hk hold
        | inr hmerge =>
            obtain ⟨d', msg, rest, hdevice, hstop, houtput, rfl, -⟩ := hmerge
            have hlast : k = (handled os).length := by
              change k < (handled os).length + 1 at hk
              omega
            rw [hlast]
            exact ((accounted hreachable).books ⟨d', hdevice, hstop⟩).displaced houtput

/-- The first worker loses message 1, and message 3 is handled in its place. -/
theorem handled_displaced_lost : ∃ os s, Reachable tens 2 [] os s ∧ handled os = [13, 12] ∧
    ∃ k' ≥ 0, Displaced tens 2 os 0 k' := by
  have hdispatched := ((((((show Reachable tens 2 [] [] _ from .start).next
    (.accept 1 rfl rfl rfl rfl)).next (.dispatch rfl rfl)).next
    (.accept 2 rfl rfl rfl rfl)).next (.dispatch rfl rfl)).next
    (.accept 3 rfl rfl rfl rfl)).next (.dispatch rfl rfl)
  have hlost := ((hdispatched.next (.receive (i := 0) rfl rfl rfl rfl)).next
    (.process (i := 0) rfl rfl rfl)).next (.lose (i := 0) rfl rfl)
  have hsecond := ((hlost.next (.receive (i := 1) rfl rfl rfl rfl)).next
    (.process (i := 1) rfl rfl rfl)).next (.send (i := 1) rfl rfl)
  have hthird := ((hsecond.next (.receive (i := 0) rfl rfl rfl rfl)).next
    (.process (i := 0) rfl rfl rfl)).next (.send (i := 0) rfl rfl)
  have hmerged := (hthird.next (.merge rfl rfl rfl)).next (.merge rfl rfl rfl)
  exact ⟨_, _, hmerged, rfl, handled_displaced tens 2 [] hmerged 0 (by decide)⟩

end Userworks.E16.TaskProcessor
