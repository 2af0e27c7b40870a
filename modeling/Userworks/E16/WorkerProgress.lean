import Mathlib.Algebra.Order.BigOperators.Group.Finset
import Userworks.E16.WorkerOrder

/-!
What the worker threads and the merger do by themselves. Between two messages of the
splitter they come to rest after a bounded number of steps, and when they are at rest
nothing that was dispatched is left on the way.
-/
namespace Userworks.E16.TaskProcessor

variable {ε σ α β : Type} {h : Handlers ε σ α β} {fNThreads : Nat} {d : σ}
  {s s' : TaskProcessor ε σ α β} {os new : List (Observation α β)}

/-- The splitter has no part in the step. -/
def Inner (s s' : TaskProcessor ε σ α β) : Prop :=
  s'.fNReceived = s.fNReceived ∧ s'.sending = s.sending ∧
    s'.newStatePending = s.newStatePending

inductive InnerRun (h : Handlers ε σ α β) (fNThreads : Nat) :
    Nat → TaskProcessor ε σ α β → TaskProcessor ε σ α β → Prop
  | rest (s : TaskProcessor ε σ α β) : InnerRun h fNThreads 0 s s
  | step {k : Nat} {s s' s'' : TaskProcessor ε σ α β} {new : List (Observation α β)}
      (hstep : Step h fNThreads s new s') (hinner : Inner s s')
      (hrun : InnerRun h fNThreads k s' s'') : InnerRun h fNThreads (k + 1) s s''

/-! ### The work that is left -/

def payloadWork : Payload α β → Nat
  | .nothing => 0
  | .received _ => 3
  | .made _ => 2

/-- The steps that the messages of a worker take until they are handled. -/
def work (w : Worker α β) : Nat := 4 * w.input.length + payloadWork w.payload + w.output.length

def load (fNThreads : Nat) (s : TaskProcessor ε σ α β) : Nat :=
  ∑ i ∈ Finset.range fNThreads, work (s.workers i)

/-- Only the threads that were started have messages. -/
theorem workers_idle (hthreads : 0 < fNThreads) (hreachable : Reachable h fNThreads d os s) :
    ∀ i, fNThreads ≤ i → s.workers i = {} := by
  induction hreachable with
  | start => exact fun i hi => rfl
  | @next s s' os new hreachable hstep ih =>
      have hupdate : ∀ j (w : Worker α β), j < fNThreads →
          ∀ i, fNThreads ≤ i → (s.setWorker j w).workers i = {} := by
        intro j w hj i hi
        rw [setWorker_other (by omega)]
        exact ih i hi
      have hstarted : ∀ j, s.workers j ≠ {} → j < fNThreads := by
        intro j hj
        by_contra hout
        exact hj (ih j (Nat.le_of_not_lt hout))
      cases hstep with
      | accept => exact ih
      | giveUp => exact ih
      | newState => exact ih
      | dispatch hdevice hsending =>
          refine hupdate _ _ ?_
          rw [(accounted hreachable).sending _ _ hsending]
          exact Nat.mod_lt _ hthreads
      | receive hdevice hpending hpayload hinput =>
          refine hupdate _ _ (hstarted _ fun hempty => ?_)
          rw [hempty] at hinput
          cases hinput
      | process hdevice hpayload =>
          refine hupdate _ _ (hstarted _ fun hempty => ?_)
          rw [hempty] at hpayload
          cases hpayload
      | skip hdevice hpayload =>
          refine hupdate _ _ (hstarted _ fun hempty => ?_)
          rw [hempty] at hpayload
          cases hpayload
      | send hdevice hpayload =>
          refine hupdate _ _ (hstarted _ fun hempty => ?_)
          rw [hempty] at hpayload
          cases hpayload
      | lose hdevice hpayload =>
          refine hupdate _ _ (hstarted _ fun hempty => ?_)
          rw [hempty] at hpayload
          cases hpayload
      | merge => exact hupdate _ _ (Nat.mod_lt _ hthreads)

theorem load_setWorker {i : Nat} (hi : i < fNThreads) {w : Worker α β}
    (hwork : work w < work (s.workers i)) :
    load fNThreads (s.setWorker i w) < load fNThreads s := by
  apply Finset.sum_lt_sum
  · intro j _
    by_cases hj : j = i
    · rw [hj, setWorker_self]
      exact Nat.le_of_lt hwork
    · rw [setWorker_other hj]
  · refine ⟨i, Finset.mem_range.mpr hi, ?_⟩
    rw [setWorker_self]
    exact hwork

theorem Inner.load_lt (hthreads : 0 < fNThreads) (hreachable : Reachable h fNThreads d os s)
    (hpending : s.newStatePending = false) (hstep : Step h fNThreads s new s')
    (hinner : Inner s s') : load fNThreads s' < load fNThreads s := by
  have hstarted : ∀ {i : Nat} {w : Worker α β}, work w < work (s.workers i) →
      load fNThreads (s.setWorker i w) < load fNThreads s := by
    intro i w hwork
    refine load_setWorker ?_ hwork
    by_contra hout
    rw [workers_idle hthreads hreachable i (Nat.le_of_not_lt hout)] at hwork
    cases hwork
  cases hstep with
  | accept msg hdevice hstop hpending hsending =>
      rw [Inner, hsending] at hinner
      cases hinner.2.1
  | dispatch hdevice hsending =>
      rw [Inner, hsending] at hinner
      cases hinner.2.1
  | giveUp hdevice hsending hstop =>
      rw [Inner, hsending] at hinner
      cases hinner.2.1
  | newState => cases hinner.2.2.trans hpending
  | receive hdevice hpending hpayload hinput =>
      apply hstarted
      simp only [work, hpayload, hinput, payloadWork, List.length_cons]
      omega
  | process hdevice hpayload hstop =>
      apply hstarted
      simp only [work, hpayload, payloadWork]
      omega
  | skip hdevice hpayload hstop =>
      apply hstarted
      simp only [work, hpayload, payloadWork]
      omega
  | send hdevice hpayload =>
      apply hstarted
      simp only [work, hpayload, payloadWork, List.length_append, List.length_singleton]
      omega
  | lose hdevice hpayload =>
      apply hstarted
      simp only [work, hpayload, payloadWork]
      omega
  | merge hdevice hpending houtput =>
      refine hstarted (i := s.fNOutput % fNThreads) ?_
      simp only [work, houtput, List.length_cons]
      omega

theorem InnerRun.bounded {k : Nat} (hthreads : 0 < fNThreads)
    (hreachable : Reachable h fNThreads d os s) (hpending : s.newStatePending = false)
    (hrun : InnerRun h fNThreads k s s') : k + load fNThreads s' ≤ load fNThreads s := by
  induction hrun generalizing os with
  | rest s => rw [Nat.zero_add]
  | step hstep hinner hrun ih =>
      have hless := hinner.load_lt hthreads hreachable hpending hstep
      have hrest := ih (hreachable.next hstep) (hinner.2.2.trans hpending)
      omega

/-! ### At rest -/

/-- No worker has a message before it, and the merger's next channel is empty. -/
theorem rest_empty (hlive : Live h s) (hpending : s.newStatePending = false)
    (hrest : ∀ new s', Step h fNThreads s new s' → ¬ Inner s s') :
    (∀ i, waiting h (s.workers i) = []) ∧
      (s.workers (s.fNOutput % fNThreads)).output = [] := by
  obtain ⟨d', hdevice, hstop⟩ := hlive
  refine ⟨?_, ?_⟩
  · intro i
    cases hpayload : (s.workers i).payload with
    | nothing =>
        cases hinput : (s.workers i).input with
        | nil => simp only [waiting, hpayload, hinput, List.map_nil]
        | cons msg rest =>
            exact absurd ⟨rfl, rfl, rfl⟩ (hrest _ _ (.receive hdevice hpending hpayload hinput))
    | received msg => exact absurd ⟨rfl, rfl, rfl⟩ (hrest _ _ (.process hdevice hpayload hstop))
    | made msg => exact absurd ⟨rfl, rfl, rfl⟩ (hrest _ _ (.send hdevice hpayload))
  · cases houtput : (s.workers (s.fNOutput % fNThreads)).output with
    | nil => rfl
    | cons msg rest =>
        exact absurd ⟨rfl, rfl, rfl⟩ (hrest _ _ (.merge hdevice hpending houtput))

/-- The message that the merger waits for has not been dispatched. -/
theorem all_handled (hreachable : Reachable h fNThreads d os s) (hnone : NoneLost os)
    (hlive : Live h s) (hpending : s.newStatePending = false)
    (hrest : ∀ new s', Step h fNThreads s new s' → ¬ Inner s s') :
    handled os = (dispatched os).map h.handleInput := by
  have hbooks := (accounted hreachable).books hlive
  obtain ⟨hwaiting, houtput⟩ := rest_empty hlive hpending hrest
  obtain ⟨rest, hsplit⟩ := handled_isPrefix hreachable hnone
  cases rest with
  | nil => rw [← hsplit, List.append_nil]
  | cons msg rest =>
      exfalso
      have hturn : turnOf fNThreads (handled os).length = s.fNOutput % fNThreads := by
        rw [turnOf, ← hbooks.merged]
      have hprefix : lane (turnOf fNThreads) (s.fNOutput % fNThreads) (handled os ++ [msg]) <+:
          lane (turnOf fNThreads) (s.fNOutput % fNThreads)
            ((dispatched os).map h.handleInput) := by
        rw [← hsplit]
        exact lane_mono _ _ ⟨rest, by rw [List.append_assoc, List.singleton_append]⟩
      have houtputs := hbooks.outputs (s.fNOutput % fNThreads)
      rw [houtput, List.append_nil, hnone.delivered] at houtputs
      rw [lane_concat_self hturn, hbooks.lanes, hwaiting, List.append_nil, ← houtputs] at hprefix
      have hlength := hprefix.length_le
      rw [List.length_append, List.length_singleton] at hlength
      omega

/-- As long as no new state is pending, the workers and the merger come to rest, and where
they rest everything is handled. -/
theorem workers_drain (h : Handlers ε σ α β) {fNThreads : Nat} (hthreads : 0 < fNThreads) (d : σ)
    {s : TaskProcessor ε σ α β} {os : List (Observation α β)}
    (hreachable : Reachable h fNThreads d os s) (hpending : s.newStatePending = false) :
    (∀ k s', InnerRun h fNThreads k s s' → k ≤ load fNThreads s) ∧
      (NoneLost os → Live h s → (∀ new s', Step h fNThreads s new s' → ¬ Inner s s') →
        handled os = (dispatched os).map h.handleInput) := by
  refine ⟨?_, ?_⟩
  · intro k s' hrun
    have hbound := hrun.bounded hthreads hreachable hpending
    omega
  · intro hnone hlive hrest
    exact all_handled hreachable hnone hlive hpending hrest

/-- Two messages before their workers take eight steps at most. -/
theorem two_messages_drain : ∃ os s, Reachable tens 2 [] os s ∧ dispatched os = [1, 2] ∧
    (∀ k s', InnerRun tens 2 k s s' → k ≤ load 2 s) ∧ load 2 s = 8 := by
  have hdispatched := ((((show Reachable tens 2 [] [] _ from .start).next
    (.accept 1 rfl rfl rfl rfl)).next (.dispatch rfl rfl)).next
    (.accept 2 rfl rfl rfl rfl)).next (.dispatch rfl rfl)
  exact ⟨_, _, hdispatched, rfl, (workers_drain tens Nat.two_pos [] hdispatched rfl).1, rfl⟩

end Userworks.E16.TaskProcessor
